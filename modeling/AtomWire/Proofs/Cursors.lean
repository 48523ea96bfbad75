import AtomWire.Traversal

/-!
# Cursors as indices

A cursor over a region carries positions, a record that was read and a mark for the end,
and two cursors are compared by the mark and the position alone. Whatever a script does
with two of them, each shows what an index into the items of the region would show:
records have a place each, every record starts behind the one before it, and an error is
the last item.
-/

namespace AtomWire

set_option autoImplicit false

namespace Traversal

/-- Cursors that only count: the cursor `k` stands on the item with the index `k`. -/
def ofList {ω : Type} (items : List ω) : Traversal Nat (Option ω) where
  start := 0
  detached := items.length
  advance k := min (k + 1) items.length
  same k l := k = l
  look k := items[k]?
  isEnd k := k = items.length

variable {κ ι ω : Type}

/-- Related cursors look alike, compare alike and stay related. -/
structure Simulates (t : Traversal κ ω) (u : Traversal ι ω) (R : κ → ι → Prop) : Prop where
  start : R t.start u.start
  detached : R t.detached u.detached
  advance {c : κ} {k : ι} (h : R c k) : R (t.advance c) (u.advance k)
  look {c : κ} {k : ι} (h : R c k) : t.look c = u.look k
  isEnd {c : κ} {k : ι} (h : R c k) : t.isEnd c = u.isEnd k
  same {c d : κ} {k l : ι} (hc : R c k) (hd : R d l) : t.same c d = u.same k l

/-- Both registers hold related cursors. -/
structure Cursors.Related (R : κ → ι → Prop) (cs : Cursors κ) (ks : Cursors ι) : Prop where
  a : R cs.a ks.a
  b : R cs.b ks.b

namespace Cursors.Related

variable {R : κ → ι → Prop} {cs : Cursors κ} {ks : Cursors ι}

theorem get (h : cs.Related R ks) (x : Register) : R (cs.get x) (ks.get x) := by
  cases x with
  | a => exact h.a
  | b => exact h.b

theorem set {c : κ} {k : ι} (h : cs.Related R ks) (x : Register) (hc : R c k) :
    (cs.set x c).Related R (ks.set x k) := by
  cases x with
  | a => exact ⟨hc, h.b⟩
  | b => exact ⟨h.a, hc⟩

end Cursors.Related

namespace Simulates

variable {t : Traversal κ ω} {u : Traversal ι ω} {R : κ → ι → Prop} {cs : Cursors κ}
  {ks : Cursors ι}

theorem step (h : t.Simulates u R) (hcs : cs.Related R ks) (command : Command) :
    (t.step cs command).1 = (u.step ks command).1 ∧
      (t.step cs command).2.Related R (u.step ks command).2 := by
  cases command with
  | advance x =>
    have hmoved := h.advance (hcs.get x)
    exact ⟨congrArg Outcome.shown (h.look hmoved), hcs.set x hmoved⟩
  | advanceAfter x =>
    exact ⟨congrArg Outcome.shown (h.look (hcs.get x)), hcs.set x (h.advance (hcs.get x))⟩
  | trail x => exact ⟨rfl, (hcs.set x.other (hcs.get x)).set x (h.advance (hcs.get x))⟩
  | look x => exact ⟨congrArg Outcome.shown (h.look (hcs.get x)), hcs⟩
  | compare => exact ⟨congrArg Outcome.truth (h.same hcs.a hcs.b), hcs⟩
  | isEnd x => exact ⟨congrArg Outcome.truth (h.isEnd (hcs.get x)), hcs⟩
  | follow x => exact ⟨rfl, hcs.set x (hcs.get x.other)⟩
  | restart x => exact ⟨rfl, hcs.set x h.start⟩
  | detach x => exact ⟨rfl, hcs.set x h.detached⟩

theorem runFrom (h : t.Simulates u R) (hcs : cs.Related R ks) (script : List Command) :
    t.runFrom cs script = u.runFrom ks script := by
  induction script generalizing cs ks with
  | nil => rfl
  | cons command rest ih =>
    obtain ⟨houtcome, hnext⟩ := h.step hcs command
    rw [Traversal.runFrom, Traversal.runFrom, houtcome, ih hnext]

theorem run (h : t.Simulates u R) (script : List Command) : t.run script = u.run script :=
  h.runFrom ⟨h.start, h.start⟩ script

end Simulates

end Traversal

namespace Region

variable {α : Type}

/-- The record with the index `k`, or the end behind the last record, is at `pos`. -/
inductive Starts (r : Region α) : Nat → Nat → Prop where
  | first : Starts r 0 r.first
  | next {k pos next : Nat} {item : α} (h : Starts r k pos) (hpos : pos < r.stop)
      (hitem : r.itemAt pos = .ok (item, next)) : Starts r (k + 1) next

namespace Starts

variable {r : Region α} {k l pos pos' : Nat}

theorem drop_items (h : r.Starts k pos) : r.items.drop k = r.itemsFrom pos := by
  induction h with
  | first => rfl
  | next _ hpos hitem ih =>
    rw [itemsFrom_of_ok hpos hitem] at ih
    rw [← List.drop_drop, ih]
    rfl

theorem unique (h : r.Starts k pos) (h' : r.Starts k pos') : pos = pos' := by
  induction h generalizing pos' with
  | first =>
    cases h' with
    | first => rfl
  | next _ _ hitem ih =>
    cases h' with
    | next h' _ hitem' =>
      obtain rfl := ih h'
      rw [hitem] at hitem'
      cases hitem'
      rfl

/-- Every record starts behind the ones before it. -/
theorem lt_of_lt (h : r.Starts k pos) (h' : r.Starts l pos') (hkl : k < l) : pos < pos' := by
  induction h' with
  | first => exact absurd hkl (Nat.not_lt_zero k)
  | @next l mid next item hmid hpos hitem ih =>
    have hstep := lt_next_of_itemAt hitem
    rcases Nat.lt_succ_iff_lt_or_eq.mp hkl with hlt | rfl
    · exact Nat.lt_trans (ih hlt) hstep
    · rwa [h.unique hmid]

theorem eq_iff (h : r.Starts k pos) (h' : r.Starts l pos') : pos = pos' ↔ k = l := by
  constructor
  · rintro rfl
    rcases Nat.lt_trichotomy k l with hlt | heq | hgt
    · exact absurd (h.lt_of_lt h' hlt) (Nat.lt_irrefl _)
    · exact heq
    · exact absurd (h'.lt_of_lt h hgt) (Nat.lt_irrefl _)
  · rintro rfl
    exact h.unique h'

end Starts

end Region

namespace RecordCursor

variable {α : Type} {r : Region α} {c d : RecordCursor α} {k l : Nat}

/-- The items that a cursor shows on its way to the end. -/
inductive Passes : RecordCursor α → List (Except WireError α) → Prop where
  | done {c : RecordCursor α} (h : c.done = true) : Passes c []
  | item {c : RecordCursor α} {items : List (Except WireError α)} (h : c.done = false)
      (hrest : Passes c.advance items) : Passes c (c.current :: items)

theorem parse_of_le (h : c.stop ≤ c.pos) : c.parse = { c with done := true } := by
  rw [parse, if_neg (Nat.not_lt.mpr h)]

theorem parse_of_error {e : WireError} (hpos : c.pos < c.stop)
    (h : c.rest.itemAt c.pos = .error e) :
    c.parse = { c with current := .error e, done := false } := by
  rw [parse, if_pos hpos, h]

theorem parse_of_ok {item : α} {next : Nat} (hpos : c.pos < c.stop)
    (h : c.rest.itemAt c.pos = .ok (item, next)) :
    c.parse = { c with next, current := .ok item, done := false } := by
  rw [parse, if_pos hpos, h]

theorem done_parse (c : RecordCursor α) : c.parse.done = decide (c.stop ≤ c.pos) := by
  by_cases hpos : c.pos < c.stop
  · rw [decide_eq_false (Nat.not_le.mpr hpos)]
    cases hitem : c.rest.itemAt c.pos with
    | error e => rw [parse_of_error hpos hitem]
    | ok found => rw [parse_of_ok hpos hitem]
  · rw [decide_eq_true (Nat.not_lt.mp hpos), parse_of_le (Nat.not_lt.mp hpos)]

theorem advance_of_done (h : c.done = true) : c.advance = c := by
  rw [advance, if_pos h]

theorem advance_of_error {e : WireError} (hdone : c.done = false) (h : c.current = .error e) :
    c.advance = { c with done := true } := by
  simp only [advance, hdone, h, Bool.false_eq_true, if_false]

theorem advance_of_ok {item : α} (hdone : c.done = false) (h : c.current = .ok item) :
    c.advance = parse { c with pos := c.next } := by
  simp only [advance, hdone, h, Bool.false_eq_true, if_false]

/-- A cursor on the record with the index `k`, which it has read. -/
structure On (r : Region α) (c : RecordCursor α) (k : Nat) : Prop where
  starts : r.Starts k c.pos
  pos_lt : c.pos < r.stop
  rest_eq : c.rest = { r with first := c.pos }
  done_eq : c.done = false
  current_eq : c.current = (r.itemAt c.pos).map Prod.fst
  next_eq {item : α} {next : Nat} (h : r.itemAt c.pos = .ok (item, next)) : c.next = next

/-- The cursor is on the record with the index `k`, or has gone through all items. -/
def StandsAt (r : Region α) (c : RecordCursor α) (k : Nat) : Prop :=
  (c.done = true ∧ k = r.items.length) ∨ On r c k

/-- The cursor shows the item with its index. -/
theorem On.drop_items (h : On r c k) : ∃ items, r.items.drop k = c.current :: items := by
  rw [h.starts.drop_items, h.current_eq]
  cases hitem : r.itemAt c.pos with
  | error e => exact ⟨[], Region.itemsFrom_of_error h.pos_lt hitem⟩
  | ok found => exact ⟨_, Region.itemsFrom_of_ok h.pos_lt hitem⟩

theorem On.getElem?_items (h : On r c k) : r.items[k]? = some c.current := by
  obtain ⟨items, hdrop⟩ := h.drop_items
  rw [← List.head?_drop, hdrop, List.head?_cons]

theorem On.lt_length (h : On r c k) : k < r.items.length :=
  (List.getElem?_eq_some_iff.mp h.getElem?_items).1

/-- A cursor that reads at the start of a record, or behind the last one. -/
theorem standsAt_parse (hstarts : r.Starts k c.pos) (hrest : c.rest = { r with first := c.pos })
    (hk : k ≤ r.items.length) : StandsAt r c.parse k := by
  have hstop : c.stop = r.stop := congrArg Region.stop hrest
  have hsame : c.rest.itemAt c.pos = r.itemAt c.pos := by
    rw [hrest]
    rfl
  by_cases hpos : c.pos < r.stop
  · refine Or.inr ?_
    cases hitem : r.itemAt c.pos with
    | error e =>
      rw [parse_of_error (hstop ▸ hpos) (hsame.trans hitem)]
      refine ⟨hstarts, hpos, hrest, rfl, ?_, ?_⟩
      · rw [hitem]
        rfl
      · intro item next hok
        rw [hitem] at hok
        cases hok
    | ok found =>
      rw [parse_of_ok (hstop ▸ hpos) (hsame.trans hitem)]
      refine ⟨hstarts, hpos, hrest, rfl, ?_, ?_⟩
      · rw [hitem]
        rfl
      · intro item next hok
        rw [hitem] at hok
        cases hok
        rfl
  · refine Or.inl ⟨?_, ?_⟩
    · rw [parse_of_le (by omega)]
    · have hdrop := hstarts.drop_items
      rw [Region.itemsFrom_of_le (Nat.not_lt.mp hpos), List.drop_eq_nil_iff] at hdrop
      exact Nat.le_antisymm hk hdrop

theorem standsAt_cursor (r : Region α) : StandsAt r r.cursor 0 :=
  standsAt_parse .first rfl (Nat.zero_le _)

theorem standsAt_detached [Inhabited (Layout α)] (r : Region α) :
    StandsAt r detached r.items.length := Or.inl ⟨rfl, rfl⟩

namespace StandsAt

theorem advance (h : StandsAt r c k) : StandsAt r c.advance (min (k + 1) r.items.length) := by
  rcases h with ⟨hdone, rfl⟩ | hon
  · rw [advance_of_done hdone, Nat.min_eq_right (Nat.le_succ _)]
    exact Or.inl ⟨hdone, rfl⟩
  · have hlt := hon.lt_length
    rw [Nat.min_eq_left hlt]
    have hdrop := hon.starts.drop_items
    cases hitem : r.itemAt c.pos with
    | error e =>
      -- Nothing comes behind an error.
      have hcurrent : c.current = .error e := by rw [hon.current_eq, hitem]; rfl
      rw [Region.itemsFrom_of_error hon.pos_lt hitem] at hdrop
      have hlen := congrArg List.length hdrop
      rw [List.length_drop, List.length_singleton] at hlen
      rw [advance_of_error hon.done_eq hcurrent]
      exact Or.inl ⟨rfl, by omega⟩
    | ok found =>
      obtain ⟨item, next⟩ := found
      have hcurrent : c.current = .ok item := by rw [hon.current_eq, hitem]; rfl
      have hrest : { c with pos := c.next }.rest = { r with first := c.next } := by
        have hrest := hon.rest_eq
        simp only [rest, Region.mk.injEq] at hrest ⊢
        exact ⟨hrest.1, trivial, hrest.2.2⟩
      rw [advance_of_ok hon.done_eq hcurrent]
      apply standsAt_parse _ hrest hlt
      rw [hon.next_eq hitem]
      exact hon.starts.next hon.pos_lt hitem

theorem look_eq (h : StandsAt r c k) :
    (if c.done then none else some c.current) = r.items[k]? := by
  rcases h with ⟨hdone, rfl⟩ | hon
  · simp [hdone]
  · simp [hon.done_eq, hon.getElem?_items]

theorem done_iff (h : StandsAt r c k) : c.done = true ↔ k = r.items.length := by
  rcases h with ⟨hdone, rfl⟩ | hon
  · simp [hdone]
  · have hlt := hon.lt_length
    simp [hon.done_eq, Nat.ne_of_lt hlt]

/-- Cursors over one region are told apart by where they are, and never else. -/
theorem same_iff (hc : StandsAt r c k) (hd : StandsAt r d l) : c.same d = true ↔ k = l := by
  rcases hc with ⟨hdone, rfl⟩ | hc
  · rw [@eq_comm _ r.items.length, ← hd.done_iff]
    simp [same, hdone]
  · rcases hd with ⟨hdone, rfl⟩ | hd
    · have hlt := hc.lt_length
      simp [same, hdone, hc.done_eq, Nat.ne_of_lt hlt]
    · have hmemory : c.block.memory = d.block.memory := by
        have hc := congrArg Region.block hc.rest_eq
        have hd := congrArg Region.block hd.rest_eq
        exact congrArg Block.memory (hc.trans hd.symm)
      rw [← hc.starts.eq_iff hd.starts]
      simp [same, hc.done_eq, hd.done_eq, hmemory]

theorem passes (h : StandsAt r c k) : c.Passes (r.items.drop k) := by
  induction hleft : r.items.length - k generalizing c k with
  | zero =>
    rw [List.drop_eq_nil_of_le (by omega)]
    rcases h with ⟨hdone, _⟩ | hon
    · exact .done hdone
    · exact absurd hon.lt_length (by omega)
  | succ left ih =>
    rcases h with ⟨_, rfl⟩ | hon
    · omega
    · have hlt := hon.lt_length
      have hnext := advance (Or.inr hon)
      rw [Nat.min_eq_left hlt] at hnext
      obtain ⟨items, hdrop⟩ := hon.drop_items
      have hitems : r.items.drop (k + 1) = items := by rw [← List.drop_drop, hdrop]; rfl
      rw [hdrop, ← hitems]
      exact .item hon.done_eq (ih hnext (by omega))

end StandsAt

end RecordCursor

theorem Region.traversal_simulates {α : Type} [Inhabited (Layout α)] (r : Region α) :
    r.traversal.Simulates (Traversal.ofList r.items) (RecordCursor.StandsAt r) where
  start := RecordCursor.standsAt_cursor r
  detached := RecordCursor.standsAt_detached r
  advance h := h.advance
  look h := h.look_eq
  isEnd h := Bool.eq_iff_iff.mpr (h.done_iff.trans decide_eq_true_iff.symm)
  same hc hd := Bool.eq_iff_iff.mpr ((hc.same_iff hd).trans decide_eq_true_iff.symm)

/-- Over any region: the items are those that a cursor shows on one pass, and whatever is
done with two cursors, they show, compare and end as indices into these items do. -/
theorem cursors_are_indices {α : Type} [Inhabited (Layout α)] (r : Region α) :
    r.cursor.Passes r.items ∧ (r.isEmpty = true ↔ r.items.length = 0) ∧
      ∀ script, r.traversal.run script = (Traversal.ofList r.items).run script := by
  have hstart := RecordCursor.standsAt_cursor r
  refine ⟨hstart.passes, ?_, r.traversal_simulates.run⟩
  rw [@eq_comm _ r.items.length, ← hstart.done_iff, Region.cursor, RecordCursor.done_parse]
  rfl

end AtomWire
