import AtomWire.Proofs.Answers
import AtomWire.Proofs.Surveys

/-!
# Reads stay in the body of the view

A view is given by whoever asks, with any offset and any size. It is refused unless it
lies in the source, and after that a question is answered from the type, the place and the
size of the view and from the bytes of its body. The main result puts this together with
what `Proofs.Answers` says of the machine that reads: it touches nothing outside of the
body, and its positions do not wrap.
-/

namespace AtomWire

set_option autoImplicit false

/-- The same memory with different contents, and a view of a body that both show. -/
structure SameBody (s t : Source) (x y : AtomView) : Prop where
  vocabulary_eq : t.vocabulary = s.vocabulary
  memory_eq : t.block.memory = s.block.memory
  type_eq : y.type = x.type
  offset_eq : y.offset = x.offset
  bodySize_eq : y.bodySize = x.bodySize
  left : s.holds x = true
  right : t.holds y = true
  agree : s.block.AgreeOn t.block x.bodyOffset x.stop

/-- In the same memory, views of the same header and the same body are the same. -/
theorem Mated.eq_of_memory {b c : Block} {x y : AtomView} (h : Mated b c x y)
    (hmemory : c.memory = b.memory) : x = y := by
  have htype := h.agree.typeAt_eq (Nat.le_refl _) (b.header_le_bodyEnd _)
  have hsize := h.agree.sizeAt_eq (Nat.le_refl _) (b.header_le_bodyEnd _)
  have hbody : slice b.bytes (x.offset + headerSize) (b.sizeAt x.offset).toNat =
      slice c.bytes (x.offset + headerSize) (b.sizeAt x.offset).toNat :=
    h.agree.slice_eq (Nat.le_add_right _ _) (Nat.le_refl _)
  rw [h.left_eq, h.right_eq, Block.viewAt, Block.viewAt, Block.span, Block.span, ← htype, ← hsize,
    hbody, hmemory]

namespace SameBody

variable {α : Type} {s t : Source} {x y : AtomView}

theorem bodyOffset_eq (h : SameBody s t x y) : y.bodyOffset = x.bodyOffset :=
  congrArg (· + headerSize) h.offset_eq

theorem body_eq (h : SameBody s t x y) : t.body y = s.body x := by
  rw [Source.body_of_holds h.left, Source.body_of_holds h.right, h.bodyOffset_eq, h.bodySize_eq,
    h.agree.slice_eq (Nat.le_refl _) (Nat.le_refl _)]

theorem openAs_eq (h : SameBody s t x y) (term : Term) (lead : Nat) :
    t.openAs term lead y = s.openAs term lead x := by
  rw [Source.openAs, Source.openAs, h.body_eq, h.type_eq, h.vocabulary_eq]

theorem expect_eq (h : SameBody s t x y) (term : Term) : t.expect term y = s.expect term x := by
  rw [Source.expect, Source.expect, h.type_eq, h.vocabulary_eq]

theorem overlies (h : SameBody s t x y) (lead : Nat) (layout : Layout α) :
    (s.regionOf x lead layout).Overlies (t.regionOf y lead layout) := by
  have hright : y.stop ≤ t.block.size := (Source.holds_iff.mp h.right).1
  have hstop : y.stop = x.stop := by
    rw [AtomView.stop, AtomView.stop, h.bodyOffset_eq, h.bodySize_eq]
  refine ⟨?_, hstop.symm, rfl, (Source.holds_iff.mp h.left).1, hstop.symm.trans_le hright, ?_⟩
  · exact congrArg (· + lead) h.bodyOffset_eq.symm
  · exact h.agree.mono (Nat.le_add_right _ _) (Nat.le_refl _)

theorem items_eq (h : SameBody s t x y) (lead : Nat) (layout : Layout α) :
    (t.regionOf y lead layout).items = (s.regionOf x lead layout).items := by
  have hmade := (h.overlies lead layout).map_items (f := id) (g := id) fun bytes a b hmated => by
    rw [hmated.eq_of_memory h.memory_eq]
  have hid : (Except.map id : Except WireError α → Except WireError α) = id := by
    funext item
    cases item <;> rfl
  rw [hid, List.map_id, List.map_id] at hmade
  exact hmade.symm

theorem values_eq (h : SameBody s t x y) (lead : Nat) (layout : Layout α) :
    (t.regionOf y lead layout).values = (s.regionOf x lead layout).values := by
  rw [Region.values, Region.values, h.items_eq]

theorem scalar_eq (h : SameBody s t x y) : t.scalar y = s.scalar x := by
  rw [Source.scalar, Source.scalar, h.body_eq, h.type_eq, h.vocabulary_eq]

theorem vector_eq (h : SameBody s t x y) : t.vector y = s.vector x := by
  rw [Source.vector, Source.vector, h.openAs_eq, h.memory_eq, h.bodyOffset_eq]

/-- The answer hangs on the body alone, whatever else the memory holds. -/
theorem answer_eq (h : SameBody s t x y) (query : Query) : t.answer y query = s.answer x query := by
  cases query with
  | scalar => rw [Source.answer, Source.answer, h.scalar_eq]
  | scalarOf kind =>
    rw [Source.answer, Source.answer, Source.scalarOf, Source.scalarOf, h.scalar_eq]
  | text form =>
    rw [Source.answer, Source.answer, Source.text, Source.text, h.body_eq, h.expect_eq]
  | literal =>
    rw [Source.answer, Source.answer, Source.literal, Source.literal, h.body_eq, h.expect_eq]
  | chunk =>
    rw [Source.answer, Source.answer, Source.chunk, Source.chunk, h.body_eq, h.expect_eq]
  | vector | element index | elements => rw [Source.answer, Source.answer, h.vector_eq]
  | children | childCount =>
    rw [Source.answer, Source.answer, Source.tuple, Source.tuple, h.openAs_eq]
    simp only [bind_assoc, pure_bind, Region.count, h.items_eq, h.values_eq]
  | object | properties | propertyCount | find key =>
    rw [Source.answer, Source.answer, Source.object, Source.object, h.body_eq, h.type_eq,
      h.vocabulary_eq]
    simp only [bind_assoc, pure_bind, Region.count, ObjectView.find, h.items_eq, h.values_eq]
  | unit | events | eventCount | firstDecrease =>
    rw [Source.answer, Source.answer, Source.sequence, Source.sequence, h.openAs_eq,
      Source.unitOf_congr h.vocabulary_eq]
    simp only [bind_assoc, pure_bind, Region.count, SequenceView.firstDecrease, h.items_eq,
      h.values_eq]

end SameBody

/-- No question about a view that lies elsewhere is answered. -/
theorem Source.answer_of_not_holds {s : Source} {view : AtomView} (h : s.holds view ≠ true)
    (query : Query) : s.answer view query = .error .truncatedBuffer := by
  have hbody := body_of_not_holds h
  cases query <;>
    simp only [answer, scalar, scalarOf, text, literal, chunk, vector, tuple, object, sequence,
      openAs, hbody, error_bind]

/-- The check of a view finds out where its body starts. -/
theorem Probe.endsAs_place {s : Source} {view : AtomView} {first stop : Nat}
    (hw : Window s view first stop) :
    EndsAs first stop (bodyStart s view)
      (s.body view >>= fun _ => .ok (UInt64.ofNat view.bodyOffset)) := by
  rw [← bind_pure (bodyStart s view)]
  refine endsAs_bodyStart hw fun _ start hstart => ?_
  rw [← hstart, UInt64.ofNat_toNat]
  exact .pure start

/-- For a source of less than `2 ^ 63` bytes. A view is accepted if and only if it lies in
the source, by exact arithmetic; otherwise every question is answered by the same error,
and nothing is touched. If it is accepted, every probe answers as the source does and
touches nothing outside of the body, nothing wraps, and the answer hangs on nothing but
the body, its place and the type. At an offset, no probe leaves the source. -/
theorem reads_contained (s : Source) (hsize : s.size < 2 ^ 63) :
    (∀ view : AtomView, view.offset < 2 ^ 64 →
      let first := view.offset + 8
      let stop := first + view.bodySize.toNat
      let lies := stop ≤ s.size ∧ view.body.bytes.length = view.bodySize.toNat ∧
        view.body.memory = s.block.memory ∧ view.body.start = first
      let check := (Probe.bodyStart s view).outcome
      (check = .ok (UInt64.ofNat first) ↔ lies) ∧
      (¬ lies → check = .error .truncatedBuffer ∧ ∀ query,
        s.answer view query = .error .truncatedBuffer ∧
        (Probe.answer s view query).outcome = .error .truncatedBuffer ∧
        ∀ lo hi, ∀ access ∈ (Probe.answer s view query).accesses, access.Sound lo hi) ∧
      (lies → ∀ query,
        (Probe.answer s view query).outcome = s.answer view query ∧
        (∀ access ∈ (Probe.answer s view query).accesses, access.Sound first stop) ∧
        ∀ t other, SameBody s t view other → t.answer other query = s.answer view query)) ∧
    ∀ offset : UInt64,
      let atoms := s.atoms offset.toNat
      (Probe.headerAt s offset).outcome = s.headerAt offset.toNat ∧
      (Probe.atomAt s offset).outcome = s.atomAt offset.toNat ∧
      (Probe.items atoms).outcome = .ok atoms.items ∧
      (Probe.count atoms).outcome = .ok atoms.count ∧
      ∀ access ∈ (Probe.headerAt s offset).accesses ++ (Probe.atomAt s offset).accesses ++
        (Probe.items atoms).accesses ++ (Probe.count atoms).accesses, access.Sound 0 s.size := by
  refine ⟨?_, ?_⟩
  · intro view hoffset first stop lies check
    have hlies : s.holds view = true ↔ lies := Source.holds_iff
    have hwindow : Probe.Window s view first stop :=
      ⟨hsize, hoffset, fun _ => Nat.le_refl _, fun _ => Nat.le_refl _⟩
    have hcheck : check = (s.body view >>= fun _ => .ok (UInt64.ofNat first)) :=
      (Probe.endsAs_place hwindow).outcome_eq
    refine ⟨?_, ?_, ?_⟩
    · rw [hcheck, ← hlies, bind_eq_ok_iff]
      constructor
      · rintro ⟨body, hbody, _⟩
        exact (Source.body_eq_ok_iff.mp hbody).1
      · intro hheld
        exact ⟨_, Source.body_of_holds hheld, rfl⟩
    · intro hout
      have hrefused : s.holds view ≠ true := mt hlies.mp hout
      refine ⟨by rw [hcheck, Source.body_of_not_holds hrefused]; rfl, ?_⟩
      intro query
      have hanswer := Source.answer_of_not_holds hrefused query
      have hends (lo hi : Nat) :
          Probe.EndsAs lo hi (Probe.answer s view query) (s.answer view query) :=
        Probe.endsAs_answer
          ⟨hsize, hoffset, fun h => absurd h hrefused, fun h => absurd h hrefused⟩ query
      exact ⟨hanswer, (hends 0 0).outcome_eq.trans hanswer, fun lo hi => (hends lo hi).sound⟩
    · intro _ query
      have hends := Probe.endsAs_answer hwindow query
      exact ⟨hends.outcome_eq, hends.sound, fun t other hsame => hsame.answer_eq query⟩
  · intro offset atoms
    have hheader := Probe.endsAs_headerAt hsize offset
    have hatom := Probe.endsAs_atomAt hsize offset
    have hinside := Probe.inside_atoms hsize offset
    have hitems := Probe.endsAs_items hinside
    have hcount := Probe.endsAs_count hinside
    refine ⟨hheader.outcome_eq, hatom.outcome_eq, hitems.outcome_eq, hcount.outcome_eq, ?_⟩
    simp only [List.forall_mem_append]
    exact ⟨⟨⟨hheader.sound, hatom.sound⟩, hitems.sound⟩, hcount.sound⟩

/-- A tuple of one empty atom: its header can be anything, since the view says what it is.
With the last offset there is, the same view is refused. -/
theorem reads_contained_tuple :
    let v := Vocabulary.unresolved.set .tuple 3
    let body : Bytes := word32 5 ++ word32 0
    let s := Source.mk v ⟨some 0, word32 7 ++ word32 7 ++ body⟩
    let t := Source.mk v ⟨some 0, word32 9 ++ word32 9 ++ body ++ body⟩
    let view : AtomView := ⟨3, 8, 0, 0, ⟨some 0, 8, body⟩⟩
    let far : AtomView := { view with offset := 2 ^ 64 - 1 }
    (Probe.bodyStart s view).outcome = .ok 8 ∧
      Access.load 8 8 ∈ (Probe.answer s view .children).accesses ∧
      (∀ access ∈ (Probe.answer s view .children).accesses, access.Sound 8 16) ∧
      t.answer view .children = s.answer view .children ∧
      s.answer far .children = .error .truncatedBuffer ∧
      ∀ access ∈ (Probe.atomAt s (.ofNat (2 ^ 64 - 1))).accesses, access.Sound 0 16 := by
  intro v body s t view far
  have hsize : s.size < 2 ^ 63 := by decide
  have hload : Access.load 8 8 ∈ (Probe.answer s view .children).accesses := by decide +kernel
  have hsame : SameBody s t view view := by
    refine ⟨rfl, rfl, rfl, rfl, rfl, by decide, by decide, ?_⟩
    have hbytes : ∀ pos : Fin 16, 8 ≤ pos.val →
        s.block.bytes[pos.val]? = t.block.bytes[pos.val]? := by decide +kernel
    exact fun pos hfirst hstop => hbytes ⟨pos, hstop⟩ hfirst
  obtain ⟨hviews, hoffsets⟩ := reads_contained s hsize
  obtain ⟨hcheck, _, hheld⟩ := hviews view (by decide)
  obtain ⟨_, hrefused, _⟩ := hviews far (by decide)
  have hlies : 16 ≤ s.size ∧ view.body.bytes.length = view.bodySize.toNat ∧
      view.body.memory = s.block.memory ∧ view.body.start = 8 := by decide
  have hfar : ¬ (2 ^ 64 - 1 + 8 + 8 ≤ s.size ∧ far.body.bytes.length = far.bodySize.toNat ∧
      far.body.memory = s.block.memory ∧ far.body.start = 2 ^ 64 - 1 + 8) := by decide
  obtain ⟨_, hsound, hlocal⟩ := hheld hlies .children
  obtain ⟨_, _, _, _, hatoms⟩ := hoffsets (.ofNat (2 ^ 64 - 1))
  refine ⟨hcheck.mpr hlies, hload, hsound, hlocal t view hsame,
    ((hrefused hfar).2 .children).1, ?_⟩
  intro access haccess
  apply hatoms
  exact List.mem_append_left _ (List.mem_append_left _ (List.mem_append_right _ haccess))

end AtomWire
