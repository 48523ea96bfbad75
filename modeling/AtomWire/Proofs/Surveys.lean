import AtomWire.Proofs.Containment
import AtomWire.Proofs.Records
import AtomWire.Proofs.Resolution

/-!
# Surveys

A survey asks everything of an atom that can be asked, and goes on to the atoms that it
finds in it, down to some level. Where two blocks hold the same header and the same body,
the surveys agree. They also agree on containers whose records differ in their padding
alone, at whatever depth, since no question is answered from padding.
-/

namespace AtomWire

set_option autoImplicit false

/-- Whether atoms of the type are read as records of other atoms. -/
def Vocabulary.holdsAtoms (v : Vocabulary) (type : TypeId) : Bool :=
  type = v.id .tuple ∨ v.isObject type ∨ type = v.id .sequence

/-- What is told of an atom itself. -/
structure Facts where
  type : TypeId
  bodySize : UInt32
  offset : Nat
  next : Nat
  /-- The body, unless it is read as records of other atoms. -/
  body : Option Bytes
  scalar : Except WireError Scalar
  text : TextForm → Except WireError Bytes
  literal : Except WireError Literal
  chunk : Except WireError Bytes
  vector : Except WireError (TypeId × UInt32 × List Bytes)

inductive Survey where
  /-- At the last level. -/
  | brief (facts : Facts)
  | full (facts : Facts) (tuple : Except WireError (List (Except WireError Survey)))
      (object : Except WireError
        (TypeId × TypeId × List (Except WireError (TypeId × TypeId × Survey))))
      (sequence : Except WireError (TimeUnit × List (Except WireError (Stamp × Survey))))

namespace Source

def facts (s : Source) (view : AtomView) : Facts where
  type := view.type
  bodySize := view.bodySize
  offset := view.offset
  next := view.next
  body := if s.vocabulary.holdsAtoms view.type then none else some view.body.bytes
  scalar := s.scalar view
  text form := s.text form view
  literal := s.literal view
  chunk := s.chunk view
  vector := (s.vector view).map fun v => (v.childType, v.width, v.items)

/-- The atom is opened in every way, though one at most will do. -/
def surveyTo (s : Source) : Nat → AtomView → Survey
  | 0, view => .brief (s.facts view)
  | levels + 1, view => .full (s.facts view)
    ((s.tuple view).map fun r => r.items.map (Except.map (s.surveyTo levels)))
    ((s.object view).map fun o => (o.id, o.otype, o.properties.items.map
      (Except.map fun p => (p.key, p.context, s.surveyTo levels p.value))))
    ((s.sequence view).map fun q => (q.unit, q.events.items.map
      (Except.map fun e => (e.stamp, s.surveyTo levels e.value))))

theorem unitOf_congr {s t : Source} (h : t.vocabulary = s.vocabulary) : t.unitOf = s.unitOf := by
  funext id
  rw [unitOf, unitOf, h]

/-- The surveys of all atoms in the source. -/
def surveysTo (s : Source) (levels : Nat) : List (Except WireError Survey) :=
  (s.atoms 0).items.map (Except.map (s.surveyTo levels))

end Source

theorem slice_congr {x y : Bytes} {start count : Nat}
    (h : ∀ pos, start ≤ pos → pos < start + count → x[pos]? = y[pos]?) :
    slice x start count = slice y start count := by
  apply List.ext_getElem?
  intro index
  simp only [slice, List.getElem?_take, List.getElem?_drop]
  split
  · exact h _ (by omega) (by omega)
  · rfl

namespace Block

/-- The blocks hold the same bytes from `first` to `stop`. -/
def AgreeOn (b c : Block) (first stop : Nat) : Prop :=
  ∀ pos, first ≤ pos → pos < stop → b.bytes[pos]? = c.bytes[pos]?

theorem header_le_bodyEnd (b : Block) (pos : Nat) : pos + headerSize ≤ b.bodyEnd pos :=
  Nat.le_add_right _ _

variable {b c : Block} {first stop pos : Nat}

theorem AgreeOn.mono {first' stop' : Nat} (h : b.AgreeOn c first stop) (hfirst : first ≤ first')
    (hstop : stop' ≤ stop) : b.AgreeOn c first' stop' :=
  fun pos hpos hlt => h pos (Nat.le_trans hfirst hpos) (Nat.lt_of_lt_of_le hlt hstop)

theorem AgreeOn.slice_eq {count : Nat} (h : b.AgreeOn c first stop) (hfirst : first ≤ pos)
    (hstop : pos + count ≤ stop) : slice b.bytes pos count = slice c.bytes pos count :=
  slice_congr (h.mono hfirst hstop)

theorem AgreeOn.typeAt_eq (h : b.AgreeOn c first stop) (hfirst : first ≤ pos)
    (hstop : pos + headerSize ≤ stop) : b.typeAt pos = c.typeAt pos := by
  unfold headerSize at hstop
  rw [typeAt, typeAt, h.slice_eq hfirst (by omega)]

theorem AgreeOn.sizeAt_eq (h : b.AgreeOn c first stop) (hfirst : first ≤ pos)
    (hstop : pos + headerSize ≤ stop) : b.sizeAt pos = c.sizeAt pos := by
  unfold headerSize at hstop
  rw [sizeAt, sizeAt, h.slice_eq (by omega) (by omega)]

end Block

/-- Views of the same header and the same body in two blocks. -/
structure Mated (b c : Block) (x y : AtomView) : Prop where
  left_eq : x = b.viewAt x.offset x.next
  right_eq : y = c.viewAt x.offset x.next
  left_le : b.bodyEnd x.offset ≤ b.size
  right_le : b.bodyEnd x.offset ≤ c.size
  agree : b.AgreeOn c x.offset (b.bodyEnd x.offset)

theorem mated_viewAt {b c : Block} {pos : Nat} (next : Nat) (hleft : b.bodyEnd pos ≤ b.size)
    (hright : b.bodyEnd pos ≤ c.size) (hagree : b.AgreeOn c pos (b.bodyEnd pos)) :
    Mated b c (b.viewAt pos next) (c.viewAt pos next) :=
  ⟨rfl, rfl, hleft, hright, hagree⟩

namespace Mated

variable {b c : Block} {s t : Source} {x y : AtomView}

theorem type_eq (h : Mated b c x y) : x.type = y.type := by
  rw [h.left_eq, h.right_eq]
  exact h.agree.typeAt_eq (Nat.le_refl _) (b.header_le_bodyEnd _)

theorem bodySize_eq (h : Mated b c x y) : x.bodySize = y.bodySize := by
  rw [h.left_eq, h.right_eq]
  exact h.agree.sizeAt_eq (Nat.le_refl _) (b.header_le_bodyEnd _)

theorem offset_eq (h : Mated b c x y) : x.offset = y.offset := by
  rw [h.right_eq]
  rfl

theorem next_eq (h : Mated b c x y) : x.next = y.next := by
  rw [h.right_eq]
  rfl

theorem bytes_eq (h : Mated b c x y) : x.body.bytes = y.body.bytes := by
  rw [h.left_eq, h.right_eq]
  change slice _ _ _ = slice _ _ _
  rw [← h.agree.sizeAt_eq (Nat.le_refl _) (b.header_le_bodyEnd _)]
  exact h.agree.slice_eq (Nat.le_add_right _ _) (Nat.le_refl _)

theorem body_left (h : Mated s.block t.block x y) : s.body x = .ok x.body.bytes := by
  have hlies : x.LiesIn s.block x.offset s.size := by
    rw [h.left_eq]
    exact ⟨Nat.le_refl _, h.left_le, rfl⟩
  rw [Source.body, ensure_bind, if_pos (Source.holds_of_liesIn hlies), hlies.body_eq]
  rfl

theorem body_right (h : Mated s.block t.block x y) : t.body y = .ok x.body.bytes := by
  have hlies : y.LiesIn t.block y.offset t.size := by
    have hsize : s.block.bodyEnd x.offset = t.block.bodyEnd x.offset := by
      rw [Block.bodyEnd, Block.bodyEnd,
        h.agree.sizeAt_eq (Nat.le_refl _) (s.block.header_le_bodyEnd _)]
    have hle := h.right_le
    rw [hsize] at hle
    rw [h.right_eq]
    exact ⟨Nat.le_refl _, hle, rfl⟩
  rw [Source.body, ensure_bind, if_pos (Source.holds_of_liesIn hlies), h.bytes_eq, hlies.body_eq]
  rfl

theorem openAs_eq (h : Mated s.block t.block x y) (hv : t.vocabulary = s.vocabulary)
    (term : Term) (lead : Nat) : s.openAs term lead x = t.openAs term lead y := by
  rw [Source.openAs, Source.openAs, h.body_left, h.body_right, hv, h.type_eq]

theorem facts_eq (h : Mated s.block t.block x y) (hv : t.vocabulary = s.vocabulary) :
    s.facts x = t.facts y := by
  have hscalar : s.scalar x = t.scalar y := by
    rw [Source.scalar, Source.scalar, h.body_left, h.body_right, hv, h.type_eq]
  have htext : ∀ form, s.text form x = t.text form y := by
    intro form
    rw [Source.text, Source.text, h.body_left, h.body_right, Source.expect, Source.expect, hv,
      h.type_eq]
  have hliteral : s.literal x = t.literal y := by
    rw [Source.literal, Source.literal, h.body_left, h.body_right, Source.expect, Source.expect,
      hv, h.type_eq]
  have hchunk : s.chunk x = t.chunk y := by
    rw [Source.chunk, Source.chunk, h.body_left, h.body_right, Source.expect, Source.expect, hv,
      h.type_eq]
  have hvector : ((s.vector x).map fun v => (v.childType, v.width, v.items)) =
      (t.vector y).map fun v => (v.childType, v.width, v.items) := by
    rw [Source.vector, Source.vector, h.openAs_eq hv]
    simp only [map_bind_except]
    rfl
  simp only [Source.facts, h.type_eq, h.bodySize_eq, h.offset_eq, h.next_eq, h.bytes_eq, hscalar,
    htext, hliteral, hchunk, hvector, hv]

end Mated

namespace Region

variable {α β : Type}

/-- Two regions that lie over the same bytes. -/
structure Overlies (r q : Region α) : Prop where
  first_eq : r.first = q.first
  stop_eq : r.stop = q.stop
  layout_eq : r.layout = q.layout
  left_le : r.stop ≤ r.block.size
  right_le : r.stop ≤ q.block.size
  agree : r.block.AgreeOn q.block r.first r.stop

namespace Overlies

variable {r q : Region α} {pos : Nat}

theorem childAt_cases (h : r.Overlies q) (hpos : r.first ≤ pos) (overrun : WireError) :
    (r.block.childAt pos r.stop overrun = .error overrun ∧
      q.block.childAt pos r.stop overrun = .error overrun) ∨
    ∃ x y, r.block.childAt pos r.stop overrun = .ok x ∧ q.block.childAt pos r.stop overrun = .ok y ∧
      Mated r.block q.block x y := by
  simp only [Block.childAt, ensure_bind, decide_eq_true_eq]
  by_cases hheader : pos + headerSize ≤ r.stop
  · have hend : q.block.bodyEnd pos = r.block.bodyEnd pos := by
      rw [Block.bodyEnd, Block.bodyEnd, h.agree.sizeAt_eq hpos hheader]
    have hpadded : q.block.paddedEnd pos = r.block.paddedEnd pos := by
      rw [Block.paddedEnd, Block.paddedEnd, hend, h.agree.sizeAt_eq hpos hheader]
    rw [if_pos hheader, if_pos hheader, hend, hpadded]
    by_cases hbody : r.block.bodyEnd pos ≤ r.stop
    · rw [if_pos hbody, if_pos hbody]
      refine Or.inr ⟨_, _, rfl, rfl, mated_viewAt _ ?_ ?_ ?_⟩
      · exact Nat.le_trans hbody h.left_le
      · exact Nat.le_trans hbody h.right_le
      · exact h.agree.mono hpos hbody
    · rw [if_neg hbody, if_neg hbody]
      exact Or.inl ⟨rfl, rfl⟩
  · rw [if_neg hheader, if_neg hheader]
    exact Or.inl ⟨rfl, rfl⟩

theorem itemAt_cases (h : r.Overlies q) (hpos : r.first ≤ pos) :
    (∃ e, r.itemAt pos = .error e ∧ q.itemAt pos = .error e) ∨
    ∃ lead x y, r.itemAt pos = .ok (r.layout.make lead x, x.next) ∧
      q.itemAt pos = .ok (r.layout.make lead y, x.next) ∧ Mated r.block q.block x y := by
  simp only [itemAt, ensure_bind, decide_eq_true_eq, ← h.layout_eq, ← h.stop_eq]
  by_cases hlead : pos + r.layout.lead ≤ r.stop
  · have hslice := h.agree.slice_eq hpos hlead
    rw [if_pos hlead, if_pos hlead, ← hslice]
    rcases h.childAt_cases (Nat.le_trans hpos (Nat.le_add_right _ _)) r.layout.overrun with
      ⟨hx, hy⟩ | ⟨x, y, hx, hy, hmated⟩
    · rw [hx, hy]
      exact Or.inl ⟨_, rfl, rfl⟩
    · rw [hx, hy]
      refine Or.inr ⟨_, x, y, rfl, ?_, hmated⟩
      rw [ok_bind, ← hmated.next_eq]
      rfl
  · rw [if_neg hlead, if_neg hlead]
    exact Or.inl ⟨_, rfl, rfl⟩

/-- The views in them are mated, one by one. -/
theorem map_itemsFrom (h : r.Overlies q) {f g : α → β}
    (hmake : ∀ lead x y, Mated r.block q.block x y →
      f (r.layout.make lead x) = g (r.layout.make lead y)) (hpos : r.first ≤ pos) :
    (r.itemsFrom pos).map (Except.map f) = (q.itemsFrom pos).map (Except.map g) := by
  induction pos using r.itemsFrom_induction with
  | behind pos hbehind =>
    rw [itemsFrom_of_le hbehind, itemsFrom_of_le (h.stop_eq ▸ hbehind)]
    rfl
  | error pos e hlt hitem =>
    rcases h.itemAt_cases hpos with ⟨e', hx, hy⟩ | ⟨lead, x, y, hx, _⟩
    · rw [itemsFrom_of_error hlt hx, itemsFrom_of_error (h.stop_eq ▸ hlt) hy]
      rfl
    · rw [hitem] at hx
      cases hx
  | record pos value hlt hchild ih =>
    have hitem := itemAt_eq_ok_iff.mpr ⟨value, hchild, rfl, rfl⟩
    have hnext := lt_next_of_itemAt hitem
    rcases h.itemAt_cases hpos with ⟨e, hx, _⟩ | ⟨lead, x, y, hx, hy, hmated⟩
    · rw [hitem] at hx
      cases hx
    · have hsame : value.next = x.next := congrArg Prod.snd (Except.ok.inj (hitem.symm.trans hx))
      have hrest := ih (Nat.le_trans hpos (Nat.le_of_lt hnext))
      rw [hsame] at hrest
      rw [itemsFrom_of_ok hlt hx, itemsFrom_of_ok (h.stop_eq ▸ hlt) hy, List.map_cons,
        List.map_cons, hrest, map_ok, map_ok, hmake lead x y hmated]

theorem map_items (h : r.Overlies q) {f g : α → β}
    (hmake : ∀ lead x y, Mated r.block q.block x y →
      f (r.layout.make lead x) = g (r.layout.make lead y)) :
    r.items.map (Except.map f) = q.items.map (Except.map g) := by
  rw [items, items, ← h.first_eq]
  exact h.map_itemsFrom hmake (Nat.le_refl _)

end Overlies

end Region

namespace Mated

variable {s t : Source} {x y : AtomView}

theorem overlies {α : Type} (h : Mated s.block t.block x y) (lead : Nat) (layout : Layout α) :
    (s.regionOf x lead layout).Overlies (t.regionOf y lead layout) := by
  have hstop : x.bodyOffset + x.bodySize.toNat = s.block.bodyEnd x.offset := by
    rw [h.left_eq]
    rfl
  have hoffset : x.bodyOffset = y.bodyOffset := congrArg (· + headerSize) h.offset_eq
  refine ⟨?_, ?_, rfl, ?_, ?_, ?_⟩
  · exact congrArg (· + lead) hoffset
  · simp only [Source.regionOf, hoffset, h.bodySize_eq]
  · exact Nat.le_trans (Nat.le_of_eq hstop) h.left_le
  · exact Nat.le_trans (Nat.le_of_eq hstop) h.right_le
  · apply h.agree.mono
    · simp only [Source.regionOf, AtomView.bodyOffset]
      omega
    · exact Nat.le_of_eq hstop

/-- Surveys of the same header and the same body agree. -/
theorem surveyTo_eq (hv : t.vocabulary = s.vocabulary) (levels : Nat)
    (h : Mated s.block t.block x y) : s.surveyTo levels x = t.surveyTo levels y := by
  induction levels generalizing x y with
  | zero => rw [Source.surveyTo, Source.surveyTo, h.facts_eq hv]
  | succ levels ih =>
    have htuple : ((s.tuple x).map fun r => r.items.map (Except.map (s.surveyTo levels))) =
        (t.tuple y).map fun r => r.items.map (Except.map (t.surveyTo levels)) := by
      have hitems := (h.overlies 0 (Layout.atoms .malformedContainer)).map_items
        (f := s.surveyTo levels) (g := t.surveyTo levels) fun _ _ _ hmated => ih hmated
      rw [Source.tuple, Source.tuple, h.openAs_eq hv]
      simp only [map_bind_except, pure_eq_ok, map_ok, hitems]
    have hobject : ((s.object x).map fun o => (o.id, o.otype, o.properties.items.map
          (Except.map fun p => (p.key, p.context, s.surveyTo levels p.value)))) =
        (t.object y).map fun o => (o.id, o.otype, o.properties.items.map
          (Except.map fun p => (p.key, p.context, t.surveyTo levels p.value))) := by
      have hitems := (h.overlies 8 Layout.properties).map_items
        (f := fun p => (p.key, p.context, s.surveyTo levels p.value))
        (g := fun p => (p.key, p.context, t.surveyTo levels p.value))
        fun _ _ _ hmated => by simp only [Source.regionOf, Layout.properties, ih hmated]
      rw [Source.object, Source.object, h.body_left, h.body_right, hv, h.type_eq]
      simp only [map_bind_except, pure_eq_ok, map_ok, hitems]
    have hsequence : ((s.sequence x).map fun q => (q.unit, q.events.items.map
          (Except.map fun e => (e.stamp, s.surveyTo levels e.value)))) =
        (t.sequence y).map fun q => (q.unit, q.events.items.map
          (Except.map fun e => (e.stamp, t.surveyTo levels e.value))) := by
      have hitems := fun unit => (h.overlies 8 (Layout.events unit)).map_items
        (f := fun e => (e.stamp, s.surveyTo levels e.value))
        (g := fun e => (e.stamp, t.surveyTo levels e.value))
        fun _ _ _ hmated => by simp only [Source.regionOf, Layout.events, ih hmated]
      rw [Source.sequence, Source.sequence, h.openAs_eq hv, Source.unitOf_congr hv]
      simp only [map_bind_except, pure_eq_ok, map_ok, hitems]
    rw [Source.surveyTo, Source.surveyTo, h.facts_eq hv, htuple, hobject, hsequence]

end Mated

end AtomWire
