import AtomWire.Source.Container

/-!
# Descending into containers
-/

namespace AtomWire

set_option autoImplicit false

inductive DescentError where
  | wire (e : WireError)
  | noSuchChild
  | notContainer
deriving DecidableEq

def DescentError.name : DescentError → String
  | wire e => e.name
  | noSuchChild => "NoSuchChild"
  | notContainer => "NotContainer"

namespace Source

/-- The atoms directly inside a tuple, an object or a sequence. -/
def children (s : Source) (view : AtomView) :
    Except DescentError (List (Except WireError AtomView)) :=
  if view.type = s.vocabulary.id .tuple then
    ((s.tuple view).map Region.items).mapError .wire
  else if s.vocabulary.isObject view.type then
    ((s.object view).map fun o => o.properties.items.map (Except.map Property.value)).mapError .wire
  else if view.type = s.vocabulary.id .sequence then
    ((s.sequence view).map fun q => q.events.items.map (Except.map Event.value)).mapError .wire
  else .error .notContainer

/-- The item at an index, unless an error comes first. -/
def pick : List (Except WireError AtomView) → Nat → Except DescentError AtomView
  | [], _ => .error .noSuchChild
  | .error e :: _, _ => .error (.wire e)
  | .ok view :: _, 0 => .ok view
  | .ok _ :: rest, index + 1 => pick rest index

def descend (s : Source) : AtomView → List Nat → Except DescentError AtomView
  | view, [] => .ok view
  | view, index :: path => do
    let items ← s.children view
    let child ← pick items index
    s.descend child path

end Source

end AtomWire
