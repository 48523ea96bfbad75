import AtomWire.TextForm
import AtomWire.Writer.Basic

/-!
# Calls on a writer

`Op` lists the calls and `Writer.step` answers one: a failed call leaves the writer as it
was, except that running out of space is remembered and refuses everything until the next
reset. `Writer.run` answers a list of calls.
-/

namespace AtomWire

set_option autoImplicit false

inductive Op where
  | reserve (count : Nat)
  | scalar (type : TypeId) (value : Scalar)
  /-- A scalar under the id that the vocabulary gives to its kind. -/
  | value (value : Scalar)
  | text (form : TextForm) (text : Bytes)
  | literal (text : Bytes) (lang datatype : TypeId)
  | chunk (body : Bytes)
  | atom (type : TypeId) (body : Bytes)
  | pushVector (childType : TypeId) (width : UInt32)
  | element (bytes : Bytes)
  | pushTuple
  | pushObject (id otype : TypeId)
  | property (key context : TypeId)
  | pushSequence (unit : TimeUnit)
  | stamp (stamp : Stamp)
  | pop
  | popHandle (handle : Handle)
  /-- Starts anew, over another buffer or over the same one. -/
  | reset (buffer : Option Bytes)
deriving DecidableEq

def Op.isReset : Op → Bool
  | reset _ => true
  | _ => false

inductive Reply where
  | done
  | offset (offset : Nat)
  | handle (handle : Handle)
deriving DecidableEq

namespace Writer

/-- The effect of a call while there is space. -/
def attempt (w : Writer) : Op → Except WireError (Reply × Writer)
  | .reserve count => (w.reserve count).map fun r => (.offset r.1, r.2)
  | .scalar type value => (w.putScalar type value).map (.done, ·)
  | .value value => (w.putScalar (w.vocabulary.scalarType value.kind) value).map (.done, ·)
  | .text form text => (w.putTyped (w.vocabulary.id form.term) (text ++ [0])).map (.done, ·)
  | .literal text lang datatype => do
    ensure (w.vocabulary.id .literal ≠ 0 ∧ (lang = 0 ∨ datatype = 0)) .typeMismatch
    let body := word32 lang ++ word32 datatype ++ text ++ [0]
    (w.putAtom (w.vocabulary.id .literal) body).map (.done, ·)
  | .chunk body => (w.putTyped (w.vocabulary.id .chunk) body).map (.done, ·)
  | .atom type body => (w.putTyped type body).map (.done, ·)
  | .pushVector childType width => (w.pushVector childType width).map fun r => (.handle r.1, r.2)
  | .element bytes => (w.putElement bytes).map (.done, ·)
  | .pushTuple => (w.push .tuple .tuple []).map fun r => (.handle r.1, r.2)
  | .pushObject id otype => (w.pushObject id otype).map fun r => (.handle r.1, r.2)
  | .property key context => (w.putProperty key context).map (.done, ·)
  | .pushSequence unit => (w.pushSequence unit).map fun r => (.handle r.1, r.2)
  | .stamp stamp => (w.putStamp stamp).map (.done, ·)
  | .pop => w.pop.map (.done, ·)
  | .popHandle handle => (w.popHandle handle).map (.done, ·)
  | .reset buffer => .ok (.done, w.reset (buffer.getD w.buffer))

def step (w : Writer) (op : Op) : Except WireError Reply × Writer :=
  if w.exhausted && !op.isReset then (.error .outOfSpace, w)
  else
    match w.attempt op with
    | .ok (reply, w') => (.ok reply, w')
    | .error .outOfSpace => (.error .outOfSpace, { w with exhausted := true })
    | .error e => (.error e, w)

def run (w : Writer) : List Op → List (Except WireError Reply) × Writer
  | [] => ([], w)
  | op :: rest =>
    let first := w.step op
    let others := first.2.run rest
    (first.1 :: others.1, others.2)

end Writer

end AtomWire
