import AtomWire.Source.Block
import AtomWire.Stamp

/-!
# Regions of records

A region is a bounded part of a block that holds records one after another: bare atoms,
or atoms that follow eight bytes of their own, a key with its context or a time stamp.
`Region.items` reads it from the first record on; an error item is always the last one.
-/

namespace AtomWire

set_option autoImplicit false

/-- How a record looks: the bytes that lead its atom, and what they make of it. -/
structure Layout (α : Type) where
  lead : Nat
  /-- The error for an atom that does not fit. -/
  overrun : WireError
  make : Bytes → AtomView → α

structure Property where
  key : TypeId
  context : TypeId
  value : AtomView
deriving DecidableEq

structure Event where
  stamp : Stamp
  value : AtomView
deriving DecidableEq

namespace Layout

def atoms (overrun : WireError) : Layout AtomView := ⟨0, overrun, fun _ value => value⟩

def properties : Layout Property :=
  ⟨8, .malformedContainer, fun lead value => ⟨getWord32 lead, getWord32 (lead.drop 4), value⟩⟩

def events (unit : TimeUnit) : Layout Event :=
  ⟨8, .malformedContainer, fun lead value => ⟨unit.read lead, value⟩⟩

end Layout

structure Region (α : Type) where
  block : Block
  first : Nat
  stop : Nat
  layout : Layout α

namespace Region

variable {α : Type}

/-- The record at a position, and the position of the one after it. -/
def itemAt (r : Region α) (pos : Nat) : Except WireError (α × Nat) := do
  ensure (pos + r.layout.lead ≤ r.stop) .malformedContainer
  let value ← r.block.childAt (pos + r.layout.lead) r.stop r.layout.overrun
  return (r.layout.make (slice r.block.bytes pos r.layout.lead) value, value.next)

theorem itemAt_eq_ok_iff {r : Region α} {pos next : Nat} {item : α} :
    r.itemAt pos = .ok (item, next) ↔
      ∃ value, r.block.childAt (pos + r.layout.lead) r.stop r.layout.overrun = .ok value ∧
        item = r.layout.make (slice r.block.bytes pos r.layout.lead) value ∧
        next = value.next := by
  simp only [itemAt, ensure_bind, decide_eq_true_eq]
  cases hchild : r.block.childAt (pos + r.layout.lead) r.stop r.layout.overrun with
  | error e =>
    constructor
    · intro h
      split at h <;> cases h
    · rintro ⟨value, hvalue, _⟩
      cases hvalue
  | ok value =>
    have hlead : pos + r.layout.lead ≤ r.stop := by
      have := (Block.childAt_eq_ok_iff.mp hchild).1
      simp only [Block.bodyEnd] at this
      omega
    rw [if_pos hlead]
    constructor
    · intro h
      cases h
      exact ⟨value, rfl, rfl, rfl⟩
    · rintro ⟨_, hvalue, rfl, rfl⟩
      cases hvalue
      rfl

theorem lt_next_of_itemAt {r : Region α} {pos next : Nat} {item : α}
    (h : r.itemAt pos = .ok (item, next)) : pos < next := by
  obtain ⟨value, hchild, _, rfl⟩ := itemAt_eq_ok_iff.mp h
  have := Block.lt_next_of_childAt hchild
  omega

/-- The records from a position on, up to the first error. -/
def itemsFrom (r : Region α) (pos : Nat) : List (Except WireError α) :=
  if pos < r.stop then
    match h : r.itemAt pos with
    | .error e => [.error e]
    | .ok (item, next) =>
      have : pos < next := lt_next_of_itemAt h
      .ok item :: r.itemsFrom next
  else []
termination_by r.stop - pos

theorem itemsFrom_of_le {r : Region α} {pos : Nat} (h : r.stop ≤ pos) : r.itemsFrom pos = [] := by
  rw [itemsFrom, if_neg (Nat.not_lt.mpr h)]

theorem itemsFrom_of_error {r : Region α} {pos : Nat} {e : WireError} (hpos : pos < r.stop)
    (h : r.itemAt pos = .error e) : r.itemsFrom pos = [.error e] := by
  rw [itemsFrom, if_pos hpos]
  split
  · rename_i he
    rw [h] at he
    cases he
    rfl
  · rename_i he
    rw [h] at he
    cases he

theorem itemsFrom_of_ok {r : Region α} {pos next : Nat} {item : α} (hpos : pos < r.stop)
    (h : r.itemAt pos = .ok (item, next)) : r.itemsFrom pos = .ok item :: r.itemsFrom next := by
  rw [itemsFrom, if_pos hpos]
  split
  · rename_i he
    rw [h] at he
    cases he
  · rename_i he
    rw [h] at he
    cases he
    rfl

/-- What holds behind the end and where there is no record, and holds at a record if it
holds at the next one, holds everywhere. -/
theorem itemsFrom_induction (r : Region α) {P : Nat → Prop} (behind : ∀ pos, r.stop ≤ pos → P pos)
    (error : ∀ pos e, pos < r.stop → r.itemAt pos = .error e → P pos)
    (record : ∀ pos value, pos < r.stop →
      r.block.childAt (pos + r.layout.lead) r.stop r.layout.overrun = .ok value →
      P value.next → P pos) (pos : Nat) : P pos := by
  induction hleft : r.stop - pos using Nat.strongRecOn generalizing pos with
  | ind left ih =>
    by_cases hpos : pos < r.stop
    · cases hitem : r.itemAt pos with
      | error e => exact error pos e hpos hitem
      | ok found =>
        obtain ⟨value, hchild, _, hnext⟩ := itemAt_eq_ok_iff.mp hitem
        have hlt := lt_next_of_itemAt hitem
        exact record pos value hpos hchild (ih _ (by omega) value.next rfl)
    · exact behind pos (Nat.not_lt.mp hpos)

def items (r : Region α) : List (Except WireError α) := r.itemsFrom r.first

/-- The records before the first error. -/
def values (r : Region α) : List α := r.items.filterMap Except.toOption

def count (r : Region α) : Nat := r.values.length

def isEmpty (r : Region α) : Bool := r.stop ≤ r.first

end Region

end AtomWire
