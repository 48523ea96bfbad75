import AtomWire.Source.Container

/-!
# Questions about a view

Everything that can be asked of an atom, as one type. A question about a container opens
it first and then goes through its records, so the answer is an error if and only if the
container cannot be opened.
-/

namespace AtomWire

set_option autoImplicit false

inductive Query where
  | scalar
  | scalarOf (kind : ScalarKind)
  | text (form : TextForm)
  | literal
  | chunk
  /-- The type and width of the elements, and all their bytes. -/
  | vector
  | element (index : UInt64)
  | elements
  | children
  | childCount
  /-- The two ids in front of the properties. -/
  | object
  | properties
  | propertyCount
  | find (key : TypeId)
  | unit
  | events
  | eventCount
  | firstDecrease
deriving DecidableEq

inductive Answer where
  | scalar (value : Scalar)
  | bytes (content : Bytes)
  | literal (value : Literal)
  | vector (value : VectorView)
  | elements (items : List Bytes)
  | atoms (items : List (Except WireError AtomView))
  | properties (items : List (Except WireError Property))
  | events (items : List (Except WireError Event))
  | object (id otype : TypeId)
  | unit (value : TimeUnit)
  | count (number : Nat)
  | found (value : Option AtomView)
  | index (place : Option Nat)

namespace Source

def answer (s : Source) (view : AtomView) : Query → Except WireError Answer
  | .scalar => return .scalar (← s.scalar view)
  | .scalarOf kind => return .scalar (← s.scalarOf kind view)
  | .text form => return .bytes (← s.text form view)
  | .literal => return .literal (← s.literal view)
  | .chunk => return .bytes (← s.chunk view)
  | .vector => return .vector (← s.vector view)
  | .element index => return .bytes ((← s.vector view).get index.toNat)
  | .elements => return .elements (← s.vector view).items
  | .children => return .atoms (← s.tuple view).items
  | .childCount => return .count (← s.tuple view).count
  | .object => do
    let o ← s.object view
    return .object o.id o.otype
  | .properties => return .properties (← s.object view).properties.items
  | .propertyCount => return .count (← s.object view).properties.count
  | .find key => return .found ((← s.object view).find key)
  | .unit => return .unit (← s.sequence view).unit
  | .events => return .events (← s.sequence view).events.items
  | .eventCount => return .count (← s.sequence view).events.count
  | .firstDecrease => return .index (← s.sequence view).firstDecrease

end Source

end AtomWire
