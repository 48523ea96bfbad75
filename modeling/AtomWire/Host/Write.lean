import AtomWire.Host.Lexicon
import AtomWire.Writer.Op

/-!
# Writing for a host

The arguments of a call are looked at before the writer is.
-/

namespace AtomWire.Host

set_option autoImplicit false

def createWriter (lexicon : Option Lexicon) (memory : Memory) (wanted : Bool) : Answer Writer :=
  match lexicon, memory.bytes?, wanted with
  | some l, some buffer, true => ⟨.ok, some (Writer.create l.vocabulary true buffer)⟩
  | _, _, _ => .fail .nullPointer

def resetWriter (writer : Option Writer) (memory : Memory) : Status × Option Writer :=
  match writer, memory.bytes? with
  | some w, some buffer => (.ok, some (w.reset buffer))
  | _, _ => (.nullPointer, writer)

def measure (writer : Option Writer) (wanted : Bool) (f : Writer → Nat) : Answer Nat :=
  match writer, wanted with
  | some w, true => ⟨.ok, some (f w)⟩
  | _, _ => .fail .nullPointer

inductive Call where
  | int (value : Int32)
  | long (value : Int64)
  | float (value : Binary32)
  | double (value : Binary64)
  | bool (value : Int32)
  | urid (id : TypeId)
  | string (text : Option Bytes)
  | pushTuple
  | pushObject (id otype : TypeId)
  | pushVector (childType : TypeId) (width : UInt32)
  | pushSequence (unit : UInt32)
  | property (key context : TypeId)
  | frameTime (frames : Int64)
  | beatTime (beats : Binary64)
  | element (memory : Memory)
  | pop

def Call.op : Call → Except Status Op
  | int value => .ok (.value (.int value))
  | long value => .ok (.value (.long value))
  | float value => .ok (.value (.float value))
  | double value => .ok (.value (.double value))
  | bool value => .ok (.value (.bool (value ≠ 0)))
  | urid id => .ok (.value (.urid id))
  | string none => .error .nullPointer
  | string (some text) => .ok (.text .string (untilZero text))
  | pushTuple => .ok .pushTuple
  | pushObject id otype => .ok (.pushObject id otype)
  | pushVector childType width => .ok (.pushVector childType width)
  | pushSequence unit =>
    if unit = 0 then .ok (.pushSequence .frames)
    else if unit = 1 then .ok (.pushSequence .beats)
    else .error .invalidArgument
  | property key context => .ok (.property key context)
  | frameTime frames => .ok (.stamp (.frames frames))
  | beatTime beats => .ok (.stamp (.beats beats))
  | element memory =>
    match memory.bytes? with
    | some bytes => .ok (.element bytes)
    | none => .error .nullPointer
  | pop => .ok .pop

def write (writer : Option Writer) (call : Call) : Status × Option Writer :=
  match call.op, writer with
  | .error status, _ => (status, writer)
  | .ok _, none => (.nullPointer, none)
  | .ok op, some w =>
    match w.step op with
    | (.ok _, w') => (.ok, some w')
    | (.error e, w') => (.wire e, some w')

end AtomWire.Host
