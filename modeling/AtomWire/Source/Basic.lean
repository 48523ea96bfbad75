import AtomWire.Scalar
import AtomWire.Source.Block
import AtomWire.TextForm

/-!
# Reading single atoms

A source is a block together with the vocabulary to read it by. Every read is given a view
and starts with `Source.body`, which hands out the bytes of the view only if the view lies
in the source, so views made by hand or found in other memory are refused.
-/

namespace AtomWire

set_option autoImplicit false

structure Source where
  vocabulary : Vocabulary
  block : Block

structure Header where
  type : TypeId
  bodySize : UInt32
  next : Nat
deriving DecidableEq

structure Literal where
  lang : TypeId
  datatype : TypeId
  text : Bytes
deriving DecidableEq

/-- The text before the zero byte that ends it. -/
def terminated (body : Bytes) : Except WireError Bytes :=
  if body.getLast? = some 0 then .ok body.dropLast else .error .malformedContainer

namespace Source

def size (s : Source) : Nat := s.block.size

/-- The header at `offset`; its body and padding must end inside the source. -/
def headerAt (s : Source) (offset : Nat) : Except WireError Header := do
  ensure (offset + headerSize ≤ s.size) .truncatedBuffer
  ensure (s.block.paddedEnd offset ≤ s.size) .truncatedBuffer
  return ⟨s.block.typeAt offset, s.block.sizeAt offset, s.block.paddedEnd offset⟩

def atomAt (s : Source) (offset : Nat) : Except WireError AtomView := do
  let header ← s.headerAt offset
  return s.block.viewAt offset header.next

/-- Whether the view lies in this very source, with its body where its offset says. -/
def holds (s : Source) (view : AtomView) : Bool :=
  view.bodyOffset + view.bodySize.toNat ≤ s.size ∧
    view.body.bytes.length = view.bodySize.toNat ∧
    view.body.memory = s.block.memory ∧ view.body.start = view.bodyOffset

def body (s : Source) (view : AtomView) : Except WireError Bytes := do
  ensure (s.holds view) .truncatedBuffer
  return slice s.block.bytes view.bodyOffset view.bodySize.toNat

def scalar (s : Source) (view : AtomView) : Except WireError Scalar := do
  let body ← s.body view
  ensure (!s.vocabulary.isContainer view.type) .unexpectedType
  s.vocabulary.decode view.type body

/-- The scalar, which must be of the given kind. -/
def scalarOf (s : Source) (kind : ScalarKind) (view : AtomView) : Except WireError Scalar := do
  let value ← s.scalar view
  ensure (value.kind = kind) .typeMismatch
  return value

/-- Fails unless the view is of the term's type and the term is not absent. -/
def expect (s : Source) (term : Term) (view : AtomView) : Except WireError Unit :=
  ensure (s.vocabulary.id term ≠ 0 ∧ view.type = s.vocabulary.id term) .unexpectedType

def text (s : Source) (form : TextForm) (view : AtomView) : Except WireError Bytes := do
  let body ← s.body view
  s.expect form.term view
  terminated body

def literal (s : Source) (view : AtomView) : Except WireError Literal := do
  let body ← s.body view
  s.expect .literal view
  let text ← terminated (body.drop 8)
  return ⟨getWord32 body, getWord32 (body.drop 4), text⟩

def chunk (s : Source) (view : AtomView) : Except WireError Bytes := do
  let body ← s.body view
  s.expect .chunk view
  return body

end Source

end AtomWire
