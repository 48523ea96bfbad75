import AtomWire.Proofs.Answers

/-!
# The order of the events of a sequence

Events are kept in the order in which they were written, and a sequence says where a stamp is
earlier than the one before it. That is found by one pass over the records, which ends at the
first such place or at the first error. Among frames, which are ordered as signed numbers,
stamps that never step back are sorted; among beats nothing of the kind holds, since a
position may be no number.
-/

namespace AtomWire

set_option autoImplicit false

section Stamps

variable {stamps others : List Stamp} {a b : Stamp} {i j : Nat}

/-- Whether the stamp at an index is earlier than the one before it. -/
def decreasesAt (stamps : List Stamp) : Nat → Bool
  | 0 => false
  | i + 1 =>
    match stamps[i]?, stamps[i + 1]? with
    | some previous, some stamp => stamp.before previous
    | _, _ => false

theorem decreasesAt_succ_iff :
    decreasesAt stamps (i + 1) = true ↔
      ∃ h : i + 1 < stamps.length, stamps[i + 1].before stamps[i] = true := by
  by_cases h : i + 1 < stamps.length
  · have hprevious : i < stamps.length := by omega
    simp [decreasesAt, h, hprevious]
  · simp [decreasesAt, h]

theorem lt_length_of_decreasesAt (h : decreasesAt stamps i = true) : i < stamps.length := by
  cases i with
  | zero => cases h
  | succ i => exact (decreasesAt_succ_iff.mp h).1

theorem decreasesAt_cons (h : b.before a = false) :
    decreasesAt (a :: b :: stamps) (i + 1) = decreasesAt (b :: stamps) i := by
  cases i with
  | zero => exact h
  | succ i => rfl

theorem decreasesAt_take {count : Nat} (h : i < count) :
    decreasesAt (stamps.take count) i = decreasesAt stamps i := by
  cases i with
  | zero => rfl
  | succ i =>
    have hprevious : i < count := Nat.lt_of_succ_lt h
    simp only [decreasesAt, List.getElem?_take_of_lt h, List.getElem?_take_of_lt hprevious]

/-- The index that is found is the least one. -/
theorem firstDecrease_eq_some_iff :
    firstDecrease stamps = some i ↔
      decreasesAt stamps i = true ∧ ∀ j < i, decreasesAt stamps j = false := by
  fun_induction firstDecrease stamps generalizing i with
  | case1 a b rest hbefore =>
    have hone : decreasesAt (a :: b :: rest) 1 = true := hbefore
    rw [Option.some.injEq]
    constructor
    · rintro rfl
      refine ⟨hone, fun j hj => ?_⟩
      rw [Nat.lt_one_iff.mp hj]
      rfl
    · rintro ⟨hat, hleast⟩
      rcases i with _ | _ | i
      · cases hat
      · rfl
      · cases hone.symm.trans (hleast 1 (by omega))
  | case2 a b rest hbefore ih =>
    have hlater := eq_false_of_ne_true hbefore
    rw [Option.map_eq_some_iff]
    constructor
    · rintro ⟨k, hk, rfl⟩
      obtain ⟨hat, hleast⟩ := ih.mp hk
      refine ⟨(decreasesAt_cons hlater).trans hat, fun j hj => ?_⟩
      cases j with
      | zero => rfl
      | succ j => exact (decreasesAt_cons hlater).trans (hleast j (by omega))
    · rintro ⟨hat, hleast⟩
      cases i with
      | zero => cases hat
      | succ i =>
        refine ⟨i, ih.mpr ⟨(decreasesAt_cons hlater).symm.trans hat, fun j hj => ?_⟩, rfl⟩
        exact (decreasesAt_cons hlater).symm.trans (hleast (j + 1) (by omega))
  | case3 stamps hshort =>
    refine iff_of_false nofun fun h => ?_
    have hlt := lt_length_of_decreasesAt h.1
    rcases stamps with _ | ⟨a, _ | ⟨b, rest⟩⟩
    · cases hlt
    · rw [Nat.lt_one_iff.mp hlt] at h
      cases h.1
    · exact hshort a b rest rfl

theorem firstDecrease_eq_none_iff :
    firstDecrease stamps = none ↔ ∀ i, decreasesAt stamps i = false := by
  constructor
  · intro hnone i
    induction i using Nat.strongRecOn with
    | ind i ih =>
      apply eq_false_of_ne_true
      intro hat
      cases hnone.symm.trans (firstDecrease_eq_some_iff.mpr ⟨hat, ih⟩)
  · intro hall
    rw [Option.eq_none_iff_forall_ne_some]
    intro i hsome
    cases (hall i).symm.trans (firstDecrease_eq_some_iff.mp hsome).1

/-- What follows the index that is found has no part in it. -/
theorem firstDecrease_of_take (h : firstDecrease stamps = some i)
    (hsame : others.take (i + 1) = stamps.take (i + 1)) : firstDecrease others = some i := by
  have hagree : ∀ j ≤ i, decreasesAt others j = decreasesAt stamps j := by
    intro j hj
    have hlt : j < i + 1 := Nat.lt_succ_of_le hj
    rw [← decreasesAt_take hlt, hsame, decreasesAt_take hlt]
  obtain ⟨hat, hleast⟩ := firstDecrease_eq_some_iff.mp h
  refine firstDecrease_eq_some_iff.mpr ⟨(hagree i (Nat.le_refl i)).trans hat, fun j hj => ?_⟩
  exact (hagree j (Nat.le_of_lt hj)).trans (hleast j hj)

/-- Counts that never step back are sorted as signed numbers. -/
theorem firstDecrease_frames_eq_none_iff (counts : List Int64) :
    firstDecrease (counts.map .frames) = none ↔
      ∀ (i j : Nat) (_ : i ≤ j) (_ : j < counts.length), counts[i].toInt ≤ counts[j].toInt := by
  have hstep : ∀ i, decreasesAt (counts.map .frames) (i + 1) = false ↔
      ∀ _ : i + 1 < counts.length, counts[i].toInt ≤ counts[i + 1].toInt := by
    intro i
    rw [← Bool.not_eq_true, decreasesAt_succ_iff]
    simp [Stamp.before, Int64.lt_iff_toInt_lt]
  rw [firstDecrease_eq_none_iff]
  constructor
  · intro hall i j hij hj
    induction hij with
    | refl => exact Int.le_refl _
    | @step j _ ih => exact Int.le_trans (ih (by omega)) ((hstep j).mp (hall (j + 1)) hj)
  · intro hsorted i
    cases i with
    | zero => rfl
    | succ i => exact (hstep i).mpr fun hi => hsorted i (i + 1) (by omega) hi

end Stamps

theorem Region.frames_of_values {r : Region Event} (h : r.layout = Layout.events .frames) :
    ∃ counts : List Int64, r.values.map Event.stamp = counts.map .frames := by
  rw [values, items]
  generalize r.first = pos
  induction pos using r.itemsFrom_induction with
  | behind pos hpos => exact ⟨[], by rw [itemsFrom_of_le hpos]; rfl⟩
  | error pos e hpos hitem => exact ⟨[], by rw [itemsFrom_of_error hpos hitem]; rfl⟩
  | record pos value hpos hchild ih =>
    obtain ⟨counts, hcounts⟩ := ih
    have hitem := itemAt_eq_ok_iff.mpr ⟨value, hchild, rfl, rfl⟩
    refine ⟨(getWord64 (slice r.block.bytes pos r.layout.lead)).toInt64 :: counts, ?_⟩
    rw [itemsFrom_of_ok hpos hitem, List.map_cons, ← hcounts, h]
    rfl

/-- The first word of the body tells the unit. -/
theorem Source.unit_of_sequence {s : Source} {view : AtomView} {q : SequenceView}
    (h : s.sequence view = .ok q) :
    q.unit = s.unitOf (getWord32 (slice s.block.bytes view.bodyOffset 4)) := by
  obtain ⟨body, hopen, hq⟩ := bind_eq_ok_iff.mp h
  obtain ⟨hbody, _, hlong⟩ := openAs_eq_ok_iff.mp hopen
  obtain ⟨hheld, rfl⟩ := body_eq_ok_iff.mp hbody
  cases hq
  rw [length_body hheld] at hlong
  rw [getWord32_slice _ _ (by omega)]

/-- The pass over the records of a sequence, on machine words, finds what the list of its stamps
tells. -/
theorem Probe.outcome_firstDecrease {s : Source} {view : AtomView} {q : SequenceView}
    (h : s.sequence view = .ok q) (hsize : s.size < 2 ^ 63) :
    (firstDecrease q).outcome = .ok q.firstDecrease := by
  obtain ⟨hheld, hevents⟩ := Source.holds_of_sequence h
  have hstop := (Source.holds_iff.mp hheld).1
  have hwindow : Window s view view.bodyOffset view.stop := by
    refine ⟨hsize, ?_, fun _ => Nat.le_refl _, fun _ => Nat.le_refl _⟩
    simp only [AtomView.stop, AtomView.bodyOffset] at hstop
    omega
  have hinside : q.events.Inside view.bodyOffset view.stop := by
    rw [hevents]
    exact hwindow.inside_regionOf hheld (by decide) (Nat.le_refl 8)
  exact (endsAs_firstDecrease hinside).outcome_eq

/-- For a sequence in any block, with the stamps of the events before the first error: the index
found is the least one whose stamp is earlier than the one before it, and it is found as well in
every sequence that has the same stamps up to it. Frames are sorted where there is none. -/
theorem sequence_order_exact (s : Source) (view : AtomView) (q : SequenceView)
    (hopen : s.sequence view = .ok q) :
    let stamps := q.events.values.map Event.stamp
    let id := getWord32 (slice s.block.bytes view.bodyOffset 4)
    (∀ i, q.firstDecrease = some i ↔
      decreasesAt stamps i = true ∧ ∀ j < i, decreasesAt stamps j = false) ∧
    (q.firstDecrease = none ↔ ∀ i, decreasesAt stamps i = false) ∧
    (∀ i, q.firstDecrease = some i → 0 < i ∧ i < q.events.count) ∧
    (q.isMonotonic = true ↔ ∀ i, decreasesAt stamps i = false) ∧
    (id = 0 ∨ id ≠ s.vocabulary.id .beat → ∃ counts : List Int64, stamps = counts.map .frames ∧
      (q.isMonotonic = true ↔ ∀ (i j : Nat) (_ : i ≤ j) (_ : j < counts.length),
        counts[i].toInt ≤ counts[j].toInt)) ∧
    (∀ (other : SequenceView) (i : Nat), q.firstDecrease = some i →
      (other.events.values.map Event.stamp).take (i + 1) = stamps.take (i + 1) →
        other.firstDecrease = some i) ∧
    (s.size < 2 ^ 63 → (Probe.firstDecrease q).outcome = .ok q.firstDecrease) := by
  intro stamps id
  have hmonotonic : q.isMonotonic = true ↔ q.firstDecrease = none := Option.isNone_iff_eq_none
  refine ⟨fun i => firstDecrease_eq_some_iff, firstDecrease_eq_none_iff, ?_,
    hmonotonic.trans firstDecrease_eq_none_iff, ?_, ?_, Probe.outcome_firstDecrease hopen⟩
  · intro i hsome
    have hat := (firstDecrease_eq_some_iff.mp hsome).1
    have hlt := lt_length_of_decreasesAt hat
    rw [List.length_map] at hlt
    refine ⟨Nat.pos_of_ne_zero ?_, hlt⟩
    rintro rfl
    cases hat
  · intro hid
    have hunit : q.unit = .frames := by
      rw [Source.unit_of_sequence hopen, Source.unitOf, if_neg]
      rintro ⟨hzero, hbeat⟩
      rcases hid with h | h
      · exact hzero h
      · exact h hbeat
    have hlayout : q.events.layout = Layout.events .frames := by
      rw [(Source.holds_of_sequence hopen).2, hunit]
      rfl
    obtain ⟨counts, hcounts⟩ := Region.frames_of_values hlayout
    refine ⟨counts, hcounts, ?_⟩
    rw [hmonotonic, ← firstDecrease_frames_eq_none_iff, ← hcounts]
    rfl
  · intro other i hsome hsame
    exact firstDecrease_of_take hsome hsame

/-- The greatest count, the least one and three bytes of a third event. -/
theorem sequence_order_exact_extremes :
    let event (count : Int64) : Bytes := word64 count.toUInt64 ++ word32 9 ++ word32 0
    let s : Source := ⟨(Vocabulary.unresolved.set .sequence 4).set .beat 5, some 0,
      word32 4 ++ word32 43 ++ (word32 0 ++ word32 0 ++ event Int64.maxValue ++
        event Int64.minValue ++ [1, 2, 3]) ++ [0, 0, 0, 0, 0]⟩
    let view := s.block.viewAt 0 56
    let q : SequenceView := ⟨.frames, s.regionOf view 8 (Layout.events .frames)⟩
    s.sequence view = .ok q ∧ q.firstDecrease = some 1 ∧ 1 < q.events.count ∧
      q.isMonotonic = false ∧ (Probe.firstDecrease q).outcome = .ok (some 1) := by
  intro event s view q
  have hopen : s.sequence view = .ok q := by cbv
  have hdecrease : decreasesAt (q.events.values.map Event.stamp) 1 = true := by decide +kernel
  have hstart : ∀ j < 1, decreasesAt (q.events.values.map Event.stamp) j = false := by
    intro j hj
    rw [Nat.lt_one_iff.mp hj]
    rfl
  obtain ⟨hsome, _, hcount, hmonotonic, _, _, hprobe⟩ := sequence_order_exact s view q hopen
  have hfirst : q.firstDecrease = some 1 := (hsome 1).mpr ⟨hdecrease, hstart⟩
  refine ⟨hopen, hfirst, (hcount 1 hfirst).2, ?_, ?_⟩
  · apply eq_false_of_ne_true
    intro hall
    cases hdecrease.symm.trans (hmonotonic.mp hall 1)
  · rw [hprobe (by decide), hfirst]

end AtomWire
