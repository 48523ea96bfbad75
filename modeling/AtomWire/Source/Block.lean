import AtomWire.Alignment
import AtomWire.Error
import AtomWire.Vocabulary

/-!
# Blocks of memory and the atoms in them

A block is a piece of memory: its bytes, and which memory it is. Spans remember where
their bytes lie, so that a span of other memory is told apart even if the bytes agree.
`Block.childAt` finds the atom at a position inside a bounded part of a block.
-/

namespace AtomWire

set_option autoImplicit false

structure Block where
  /-- Which memory this is; `none` for no memory at all. -/
  memory : Option Nat
  bytes : Bytes

structure Span where
  memory : Option Nat
  start : Nat
  bytes : Bytes
deriving DecidableEq

def Block.size (b : Block) : Nat := b.bytes.length

def Block.span (b : Block) (start count : Nat) : Span :=
  ⟨b.memory, start, slice b.bytes start count⟩

structure AtomView where
  type : TypeId
  bodySize : UInt32
  offset : Nat
  /-- The position after body and padding. -/
  next : Nat
  body : Span
deriving DecidableEq

def AtomView.bodyOffset (view : AtomView) : Nat := view.offset + headerSize

def Block.typeAt (b : Block) (pos : Nat) : TypeId := getWord32 (slice b.bytes pos 4)

def Block.sizeAt (b : Block) (pos : Nat) : UInt32 := getWord32 (slice b.bytes (pos + 4) 4)

/-- The position after the header and the body announced at `pos`. -/
def Block.bodyEnd (b : Block) (pos : Nat) : Nat := pos + headerSize + (b.sizeAt pos).toNat

/-- The position after the padding of the atom announced at `pos`. -/
def Block.paddedEnd (b : Block) (pos : Nat) : Nat :=
  b.bodyEnd pos + padding (b.sizeAt pos).toNat

/-- The atom announced at `pos`, continued at `next`. -/
def Block.viewAt (b : Block) (pos next : Nat) : AtomView :=
  ⟨b.typeAt pos, b.sizeAt pos, pos, next, b.span (pos + headerSize) (b.sizeAt pos).toNat⟩

/-- The atom at `pos`, whose header and body must end at `stop` or before. Its padding may
be cut off by `stop`. -/
def Block.childAt (b : Block) (pos stop : Nat) (overrun : WireError) :
    Except WireError AtomView := do
  ensure (pos + headerSize ≤ stop) overrun
  ensure (b.bodyEnd pos ≤ stop) overrun
  return b.viewAt pos (min (b.paddedEnd pos) stop)

theorem Block.childAt_eq_ok_iff {b : Block} {pos stop : Nat} {overrun : WireError}
    {view : AtomView} :
    b.childAt pos stop overrun = .ok view ↔
      b.bodyEnd pos ≤ stop ∧ view = b.viewAt pos (min (b.paddedEnd pos) stop) := by
  have hle : pos + headerSize ≤ b.bodyEnd pos := Nat.le_add_right _ _
  simp only [childAt, ensure_bind, decide_eq_true_eq]
  constructor
  · intro h
    split at h
    · split at h
      · rename_i hbody
        cases h
        exact ⟨hbody, rfl⟩
      · cases h
    · cases h
  · rintro ⟨hbody, rfl⟩
    rw [if_pos (by omega), if_pos hbody]
    rfl

theorem Block.childAt_of_lt {b : Block} {pos stop : Nat} {overrun : WireError}
    (h : stop < b.bodyEnd pos) : b.childAt pos stop overrun = .error overrun := by
  simp only [childAt, ensure_bind, decide_eq_true_eq, if_neg (Nat.not_le_of_lt h), ite_self]

theorem Block.lt_next_of_childAt {b : Block} {pos stop : Nat} {overrun : WireError}
    {view : AtomView} (h : b.childAt pos stop overrun = .ok view) : pos < view.next := by
  obtain ⟨hbody, rfl⟩ := childAt_eq_ok_iff.mp h
  simp only [viewAt, paddedEnd, bodyEnd, headerSize] at hbody ⊢
  omega

end AtomWire
