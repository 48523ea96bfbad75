import AtomWire.Source.Basic
import AtomWire.Source.Region

/-!
# Reading containers

Opening a container checks its own body only; the records in it are checked as they are
read. Objects must have an id of their own, while vectors, tuples and sequences compare
the type alone, so that an absent type matches a term that is absent.
-/

namespace AtomWire

set_option autoImplicit false

structure VectorView where
  childType : TypeId
  width : UInt32
  elements : Span
deriving DecidableEq

structure ObjectView where
  id : TypeId
  otype : TypeId
  properties : Region Property

structure SequenceView where
  unit : TimeUnit
  events : Region Event

namespace VectorView

def size (v : VectorView) : Nat := v.elements.bytes.length / v.width.toNat

/-- The element at an index; nothing where there is none. -/
def get (v : VectorView) (index : Nat) : Bytes :=
  if index < v.size then slice v.elements.bytes (index * v.width.toNat) v.width.toNat else []

/-- The element that a cursor at `index` stands on. Its position is computed on 64-bit
words; nothing is shown where it does not lie among the elements. -/
def look (v : VectorView) (index : UInt64) : Bytes :=
  let start := index * v.width.toUInt64
  if v.width = 0 ∨ v.elements.bytes.length < (start + v.width.toUInt64).toNat then []
  else slice v.elements.bytes start.toNat v.width.toNat

/-- The elements that a cursor shows on its way from the first to the last. -/
def items (v : VectorView) : List Bytes :=
  (List.range v.size).map fun i => v.look (UInt64.ofNat i)

end VectorView

/-- The value of a key; the last one if there are several. -/
def ObjectView.find (v : ObjectView) (key : TypeId) : Option AtomView :=
  ((v.properties.values.filter fun p => p.key = key).getLast?).map Property.value

/-- The index of the first stamp that is earlier than the one before it. -/
def firstDecrease : List Stamp → Option Nat
  | a :: b :: rest => if b.before a then some 1 else (firstDecrease (b :: rest)).map (· + 1)
  | _ => none

def SequenceView.firstDecrease (v : SequenceView) : Option Nat :=
  AtomWire.firstDecrease (v.events.values.map Event.stamp)

def SequenceView.isMonotonic (v : SequenceView) : Bool := v.firstDecrease.isNone

namespace Source

def atoms (s : Source) (offset : Nat) : Region AtomView :=
  ⟨s.block, offset, s.size, Layout.atoms .truncatedBuffer⟩

/-- The records in the body of a view, after `lead` bytes of it. -/
def regionOf {α : Type} (s : Source) (view : AtomView) (lead : Nat) (layout : Layout α) :
    Region α :=
  ⟨s.block, view.bodyOffset + lead, view.bodyOffset + view.bodySize.toNat, layout⟩

/-- The body of a view of the term's type, which must have `lead` bytes at least. -/
def openAs (s : Source) (term : Term) (lead : Nat) (view : AtomView) :
    Except WireError Bytes := do
  let body ← s.body view
  ensure (view.type = s.vocabulary.id term) .unexpectedType
  ensure (lead ≤ body.length) .malformedContainer
  return body

def vector (s : Source) (view : AtomView) : Except WireError VectorView := do
  let body ← s.openAs .vector 8 view
  let width := getWord32 (body.drop 4)
  let elements := body.drop 8
  ensure (if width = 0 then elements.isEmpty else elements.length % width.toNat = 0)
    .malformedContainer
  return ⟨getWord32 body, width, ⟨s.block.memory, view.bodyOffset + 8, elements⟩⟩

def tuple (s : Source) (view : AtomView) : Except WireError (Region AtomView) := do
  let _ ← s.openAs .tuple 0 view
  return s.regionOf view 0 (Layout.atoms .malformedContainer)

def object (s : Source) (view : AtomView) : Except WireError ObjectView := do
  let body ← s.body view
  ensure (s.vocabulary.isObject view.type) .unexpectedType
  ensure (8 ≤ body.length) .malformedContainer
  return ⟨getWord32 body, getWord32 (body.drop 4), s.regionOf view 8 Layout.properties⟩

/-- Any unit id but that of beats is read as frames. -/
def unitOf (s : Source) (id : TypeId) : TimeUnit :=
  if id ≠ 0 ∧ id = s.vocabulary.id .beat then .beats else .frames

def sequence (s : Source) (view : AtomView) : Except WireError SequenceView := do
  let body ← s.openAs .sequence 8 view
  let unit := s.unitOf (getWord32 body)
  return ⟨unit, s.regionOf view 8 (Layout.events unit)⟩

end Source

end AtomWire
