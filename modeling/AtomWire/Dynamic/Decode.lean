import AtomWire.Dynamic.Value
import AtomWire.Source.Container
import AtomWire.UriTable

/-!
# Decoding to dynamic values

The first error in reading order is the outcome, and bytes of which no text can be made are
an error as well. Nesting is limited, so that no buffer can ask for unbounded work.
-/

namespace AtomWire.Dynamic

set_option autoImplicit false

inductive Failure where
  | wire (e : WireError)
  | nestingTooDeep
  | emptyUri
  /-- Bytes of which no text could be made. -/
  | notText (message : String)
deriving DecidableEq

/-- How a failure is raised. -/
inductive FailureKind where
  | invalidArgument | runtime | foreign
deriving DecidableEq

def Failure.kind : Failure → FailureKind
  | wire _ => .runtime
  | nestingTooDeep | emptyUri => .invalidArgument
  | notText _ => .foreign

def Failure.message : Failure → String
  | wire e => e.name
  | nestingTooDeep => "Atom nesting too deep"
  | emptyUri => "URI must not be empty"
  | notText message => message

def lift {α : Type} (result : Except WireError α) : Except Failure α := result.mapError .wire

/-- Atoms may be nested in so many others. -/
def maxNesting : Nat := 64

variable {Text : Type}

def textOf (make : TextMaker Text) (bytes : Bytes) : Except Failure Text :=
  (make bytes).mapError .notText

def keyOf (make : TextMaker Text) (table : UriTable) (key : TypeId) :
    Except Failure (Key Text) :=
  match table.unmap key with
  | some uri => return .uri (← textOf make uri)
  | none => return .id key

/-- A scalar where the element can be read as one, else its bytes. -/
def elementValue (s : Source) (childType : TypeId) (bytes : Bytes) : Value Text :=
  match s.vocabulary.decode childType bytes with
  | .ok value => .ofScalar value
  | .error _ => .bytes bytes

def formOf? (v : Vocabulary) (type : TypeId) : Option TextForm :=
  TextForm.all.find? fun form => type = v.id form.term

def listValue (inner : AtomView → Except Failure (Value Text))
    (items : List (Except WireError AtomView)) : Except Failure (Value Text) := do
  let values ← items.mapM fun item => do inner (← lift item)
  return .list values

/-- The value of a property is decoded before its key is made a text. -/
def dictValue [DecidableEq Text] (make : TextMaker Text) (table : UriTable)
    (inner : AtomView → Except Failure (Value Text)) (items : List (Except WireError Property)) :
    Except Failure (Value Text) := do
  let entries ← items.foldlM (fun entries item => do
    let property ← lift item
    let value ← inner property.value
    let key ← keyOf make table property.key
    return insertEntry key value entries) []
  return .dict entries

def eventsValue (inner : AtomView → Except Failure (Value Text))
    (items : List (Except WireError Event)) : Except Failure (Value Text) := do
  let values ← items.mapM fun item => do
    let event ← lift item
    let value ← inner event.value
    return Value.pair (.ofStamp event.stamp) value
  return .list values

def valueWith [DecidableEq Text] (make : TextMaker Text) (s : Source) (table : UriTable)
    (inner : AtomView → Except Failure (Value Text)) (atom : AtomView) :
    Except Failure (Value Text) := do
  let v := s.vocabulary
  if (v.scalarKind? atom.type).isSome then
    return .ofScalar (← lift (s.scalar atom))
  else if let some form := formOf? v atom.type then
    return .text (← textOf make (← lift (s.text form atom)))
  else if atom.type = v.id .literal then
    return .text (← textOf make (← lift (s.literal atom)).text)
  else if atom.type = v.id .vector then
    let vector ← lift (s.vector atom)
    return .list (vector.items.map (elementValue s vector.childType))
  else if atom.type = v.id .tuple then
    listValue inner (← lift (s.tuple atom)).items
  else if v.isObject atom.type then
    dictValue make table inner (← lift (s.object atom)).properties.items
  else if atom.type = v.id .sequence then
    eventsValue inner (← lift (s.sequence atom)).events.items
  else return .bytes atom.body.bytes

/-- The value of an atom that may be nested `levels - 1` deep. -/
def valueTo [DecidableEq Text] (make : TextMaker Text) (s : Source) (table : UriTable) :
    Nat → AtomView → Except Failure (Value Text)
  | 0, _ => .error .nestingTooDeep
  | levels + 1, atom => valueWith make s table (valueTo make s table levels) atom

/-- The atom at an offset as a value. The standard terms are resolved first, and stay so
even if the decoding fails. -/
def decode [DecidableEq Text] (make : TextMaker Text) (table : UriTable) (bytes : Bytes)
    (offset : Option Nat) : Except Failure (Value Text) × UriTable :=
  let resolved := table.resolve
  let s : Source := ⟨resolved.1, ⟨some 0, bytes⟩⟩
  let value := do
    let atom ← lift (s.atomAt (offset.getD 0))
    valueTo make s resolved.2 (maxNesting + 1) atom
  (value, resolved.2)

end AtomWire.Dynamic
