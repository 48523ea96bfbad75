import Mathlib.Data.List.Pairwise
import AtomWire.Bytes.Lemmas
import AtomWire.Proofs.Moves
import AtomWire.Source.Container

/-!
# What can be reached in a buffer

Nothing is assumed of the bytes or of the vocabulary. Whatever is found in a container
lies in the body of the container, and what is found later lies behind what was found
before. So going down comes to an end, and the headers met on the way never overlap.
-/

namespace AtomWire

set_option autoImplicit false

namespace AtomView

/-- The position after the body. -/
def stop (view : AtomView) : Nat := view.bodyOffset + view.bodySize.toNat

/-- Header and body of the first view end before the second view starts. -/
def Before (a b : AtomView) : Prop := a.stop ≤ b.offset

/-- Header and body of the first view lie in the body of the second one. -/
def Within (a b : AtomView) : Prop := b.bodyOffset ≤ a.offset ∧ a.stop ≤ b.stop

/-- The view shows the block as it is, from `first` at the earliest to `stop` at the latest. -/
structure LiesIn (view : AtomView) (b : Block) (first stop : Nat) : Prop where
  first_le : first ≤ view.offset
  stop_le : view.stop ≤ stop
  body_eq : view.body = b.span view.bodyOffset view.bodySize.toNat

theorem offset_add_le_stop (view : AtomView) : view.offset + headerSize ≤ view.stop :=
  Nat.le_add_right _ _

end AtomView

inductive Opening where
  | tuple | object | sequence

namespace Source

/-- The views in a container, up to the first error; none if it cannot be opened so. -/
def inner (s : Source) (way : Opening) (view : AtomView) : List AtomView :=
  match way with
  | .tuple => ((s.tuple view).toOption.map Region.values).getD []
  | .object =>
    ((s.object view).toOption.map fun o => o.properties.values.map Property.value).getD []
  | .sequence =>
    ((s.sequence view).toOption.map fun q => q.events.values.map Event.value).getD []

/-- The views that can be come by from the offset on. -/
inductive Reached (s : Source) (offset : Nat) : AtomView → Prop where
  | atom {view : AtomView} (h : s.atomAt offset = .ok view) : Reached s offset view
  | item {view : AtomView} (h : view ∈ (s.atoms offset).values) : Reached s offset view
  | inner {view child : AtomView} (way : Opening) (hview : Reached s offset view)
      (h : child ∈ s.inner way view) : Reached s offset child

end Source

namespace Region

variable {α : Type}

/-- The records of a region follow each other between its ends. -/
theorem itemsFrom_spread (r : Region α) (f : α → AtomView)
    (hf : ∀ lead view, f (r.layout.make lead view) = view) (pos : Nat) :
    let views := ((r.itemsFrom pos).filterMap Except.toOption).map f
    (∀ view ∈ views, view.LiesIn r.block pos r.stop) ∧ views.Pairwise AtomView.Before := by
  induction hleft : r.stop - pos using Nat.strongRecOn generalizing pos with
  | ind left ih =>
    intro views
    by_cases hpos : pos < r.stop
    · cases hitem : r.itemAt pos with
      | error e =>
        have hviews : views = [] := by
          simp [views, itemsFrom_of_error hpos hitem, Except.toOption]
        simp [hviews]
      | ok found =>
        obtain ⟨item, next⟩ := found
        obtain ⟨value, hchild, rfl, rfl⟩ := itemAt_eq_ok_iff.mp hitem
        obtain ⟨hbody, hview⟩ := Block.childAt_eq_ok_iff.mp hchild
        have hlt := lt_next_of_itemAt hitem
        have hviews : views =
            value :: ((r.itemsFrom value.next).filterMap Except.toOption).map f := by
          simp [views, itemsFrom_of_ok hpos hitem, Except.toOption, hf]
        obtain ⟨hrest, hpairs⟩ := ih _ (by omega) value.next rfl
        have hstop : value.stop = r.block.bodyEnd (pos + r.layout.lead) := by
          rw [hview]
          rfl
        have hnext : value.stop ≤ value.next := by
          rw [hstop, hview]
          simp only [Block.viewAt, Block.paddedEnd]
          omega
        have hoffset : value.offset = pos + r.layout.lead := by
          rw [hview]
          rfl
        have hvalue : value.LiesIn r.block pos r.stop := by
          refine ⟨by omega, by omega, ?_⟩
          rw [hview]
          rfl
        rw [hviews]
        refine ⟨?_, List.pairwise_cons.mpr ⟨?_, hpairs⟩⟩
        · intro view hmem
          rcases List.mem_cons.mp hmem with rfl | hmem
          · exact hvalue
          · have hview := hrest view hmem
            refine { hview with first_le := ?_ }
            exact Nat.le_trans (Nat.le_of_lt hlt) hview.first_le
        · intro view hmem
          exact Nat.le_trans hnext (hrest view hmem).first_le
    · have hviews : views = [] := by simp [views, itemsFrom_of_le (Nat.not_lt.mp hpos)]
      simp [hviews]

end Region

namespace Source

variable {s : Source} {way : Opening} {view child : AtomView} {offset : Nat} {body : Bytes}

theorem regionOf_spread {α : Type} (s : Source) (view : AtomView) (lead : Nat) (layout : Layout α)
    (f : α → AtomView) (hf : ∀ bytes view, f (layout.make bytes view) = view) :
    let views := (s.regionOf view lead layout).values.map f
    (∀ child ∈ views, child.LiesIn s.block view.bodyOffset view.stop) ∧
      views.Pairwise AtomView.Before := by
  obtain ⟨hlies, hpairs⟩ := (s.regionOf view lead layout).itemsFrom_spread f hf
    (view.bodyOffset + lead)
  refine ⟨?_, hpairs⟩
  intro child hchild
  refine { hlies child hchild with first_le := ?_ }
  exact Nat.le_trans (Nat.le_add_right _ _) (hlies child hchild).first_le

/-- Opening a container shows views in its body, one behind the other. -/
theorem inner_spread (s : Source) (way : Opening) (view : AtomView) :
    (∀ child ∈ s.inner way view, child.LiesIn s.block view.bodyOffset view.stop) ∧
      (s.inner way view).Pairwise AtomView.Before := by
  cases way with
  | tuple =>
    cases hopen : s.tuple view with
    | error e => simp [inner, hopen, Except.toOption]
    | ok region =>
      obtain ⟨_, _, hregion⟩ := bind_eq_ok_iff.mp hopen
      cases hregion
      have hspread := s.regionOf_spread view 0 (Layout.atoms .malformedContainer) id
        (fun _ _ => rfl)
      simpa [inner, hopen, Except.toOption] using hspread
  | object =>
    cases hopen : s.object view with
    | error e => simp [inner, hopen, Except.toOption]
    | ok found =>
      obtain ⟨_, _, hrest⟩ := bind_eq_ok_iff.mp hopen
      obtain ⟨_, hrest⟩ := ensure_eq_ok_iff.mp hrest
      obtain ⟨_, hfound⟩ := ensure_eq_ok_iff.mp hrest
      cases hfound
      have hspread := s.regionOf_spread view 8 Layout.properties Property.value (fun _ _ => rfl)
      simpa [inner, hopen, Except.toOption] using hspread
  | sequence =>
    cases hopen : s.sequence view with
    | error e => simp [inner, hopen, Except.toOption]
    | ok found =>
      obtain ⟨body, _, hfound⟩ := bind_eq_ok_iff.mp hopen
      cases hfound
      have hspread := s.regionOf_spread view 8 (Layout.events (s.unitOf (getWord32 body)))
        Event.value (fun _ _ => rfl)
      simpa [inner, hopen, Except.toOption] using hspread

theorem within_of_inner (h : child ∈ s.inner way view) : child.Within view :=
  have hlies := (s.inner_spread way view).1 child h
  ⟨hlies.first_le, hlies.stop_le⟩

theorem bodySize_of_within (h : child.Within view) :
    child.bodySize.toNat + 8 ≤ view.bodySize.toNat := by
  obtain ⟨hfirst, hstop⟩ := h
  unfold AtomView.stop at hstop
  unfold AtomView.bodyOffset headerSize at *
  omega

theorem atoms_spread (s : Source) (offset : Nat) :
    (∀ view ∈ (s.atoms offset).values, view.LiesIn s.block offset s.size) ∧
      (s.atoms offset).values.Pairwise AtomView.Before := by
  have hspread := (s.atoms offset).itemsFrom_spread id (fun _ _ => rfl) offset
  rwa [List.map_id] at hspread

theorem atomAt_liesIn (h : s.atomAt offset = .ok view) : view.LiesIn s.block offset s.size := by
  obtain ⟨header, hheader, hview⟩ := bind_eq_ok_iff.mp h
  obtain ⟨_, hrest⟩ := ensure_eq_ok_iff.mp hheader
  obtain ⟨hend, hrest⟩ := ensure_eq_ok_iff.mp hrest
  cases hrest
  cases hview
  simp only [decide_eq_true_eq] at hend
  exact ⟨Nat.le_refl _, Nat.le_trans (Nat.le_add_right _ _) hend, rfl⟩

theorem Reached.liesIn (h : s.Reached offset view) : view.LiesIn s.block offset s.size := by
  induction h with
  | atom hatom => exact atomAt_liesIn hatom
  | item hitem => exact (s.atoms_spread offset).1 _ hitem
  | inner way hview hchild ih =>
    have hlies := (s.inner_spread way _).1 _ hchild
    refine ⟨?_, Nat.le_trans hlies.stop_le ih.stop_le, hlies.body_eq⟩
    exact Nat.le_trans ih.first_le (Nat.le_trans (Nat.le_add_right _ _) hlies.first_le)

theorem holds_iff : s.holds view = true ↔
    view.stop ≤ s.size ∧ view.body.bytes.length = view.bodySize.toNat ∧
      view.body.memory = s.block.memory ∧ view.body.start = view.bodyOffset :=
  decide_eq_true_iff

theorem body_eq_ok_iff : s.body view = .ok body ↔
    s.holds view = true ∧ body = slice s.block.bytes view.bodyOffset view.bodySize.toNat := by
  rw [Source.body, ensure_eq_ok_iff, pure_eq_ok, Except.ok.injEq]
  exact and_congr_right fun _ => eq_comm

theorem body_of_holds (h : s.holds view = true) :
    s.body view = .ok (slice s.block.bytes view.bodyOffset view.bodySize.toNat) :=
  body_eq_ok_iff.mpr ⟨h, rfl⟩

theorem body_of_not_holds (h : s.holds view ≠ true) : s.body view = .error .truncatedBuffer := by
  rw [body, ensure_bind, if_neg h]

theorem length_body (h : s.holds view = true) :
    (slice s.block.bytes view.bodyOffset view.bodySize.toNat).length = view.bodySize.toNat :=
  length_slice (holds_iff.mp h).1

theorem openAs_eq_ok_iff {term : Term} {lead : Nat} :
    s.openAs term lead view = .ok body ↔
      s.body view = .ok body ∧ view.type = s.vocabulary.id term ∧ lead ≤ body.length := by
  constructor
  · intro h
    obtain ⟨found, hbody, hrest⟩ := bind_eq_ok_iff.mp h
    obtain ⟨htype, hrest⟩ := ensure_eq_ok_iff.mp hrest
    obtain ⟨hlead, hfound⟩ := ensure_eq_ok_iff.mp hrest
    cases hfound
    exact ⟨hbody, of_decide_eq_true htype, of_decide_eq_true hlead⟩
  · rintro ⟨hbody, htype, hlead⟩
    rw [openAs, hbody, ok_bind, ensure_bind, if_pos (decide_eq_true htype), ensure_bind,
      if_pos (decide_eq_true hlead)]
    rfl

theorem holds_of_liesIn {first : Nat} (h : view.LiesIn s.block first s.size) :
    s.holds view = true := by
  have hstop := h.stop_le
  unfold AtomView.stop at hstop
  have hlen : view.body.bytes.length = view.bodySize.toNat := by
    rw [h.body_eq]
    simp only [Block.span, slice, List.length_take, List.length_drop]
    unfold size Block.size at hstop
    omega
  have hmemory : view.body.memory = s.block.memory := by
    rw [h.body_eq]
    rfl
  have hstart : view.body.start = view.bodyOffset := by
    rw [h.body_eq]
    rfl
  simp [holds, hlen, hmemory, hstart, hstop]

theorem wellFounded_inner (s : Source) :
    WellFounded fun child view => ∃ way, child ∈ s.inner way view := by
  refine Subrelation.wf ?_ (measure fun view : AtomView => view.bodySize.toNat).wf
  rintro child view ⟨way, hchild⟩
  have := bodySize_of_within (within_of_inner hchild)
  exact show child.bodySize.toNat < view.bodySize.toNat by omega

/-- The view and all that is found below it, every view opened once, in the way chosen for it. -/
def explore (s : Source) (choose : AtomView → Opening) (view : AtomView) : List AtomView :=
  view :: (s.inner (choose view) view).attach.flatMap fun child => s.explore choose child.1
termination_by view.bodySize.toNat
decreasing_by
  have := bodySize_of_within (within_of_inner child.2)
  omega

theorem explore_eq (s : Source) (choose : AtomView → Opening) (view : AtomView) :
    s.explore choose view =
      view :: (s.inner (choose view) view).flatMap (s.explore choose) := by
  have hattach : (s.inner (choose view) view).flatMap (s.explore choose) =
      ((s.inner (choose view) view).attach.map Subtype.val).flatMap (s.explore choose) := by
    rw [List.attach_map_subtype_val]
  rw [explore, hattach, List.flatMap_map]

theorem explore_spread (s : Source) (choose : AtomView → Opening) (view : AtomView) :
    (∀ found ∈ s.explore choose view, view.offset ≤ found.offset ∧ found.stop ≤ view.stop) ∧
      (s.explore choose view).Pairwise fun a b => b.Within a ∨ a.Before b := by
  induction view using (wellFounded_inner s).induction with
  | h view ih =>
    obtain ⟨hlies, hpairs⟩ := s.inner_spread (choose view) view
    have hbelow : ∀ found ∈ (s.inner (choose view) view).flatMap (s.explore choose),
        found.Within view := by
      intro found hfound
      obtain ⟨child, hchild, hfound⟩ := List.mem_flatMap.mp hfound
      obtain ⟨hfirst, hstop⟩ := (ih child ⟨_, hchild⟩).1 found hfound
      have hin := hlies child hchild
      exact ⟨Nat.le_trans hin.first_le hfirst, Nat.le_trans hstop hin.stop_le⟩
    rw [explore_eq]
    refine ⟨?_, List.pairwise_cons.mpr ⟨fun found hfound => Or.inl (hbelow found hfound), ?_⟩⟩
    · intro found hfound
      rcases List.mem_cons.mp hfound with rfl | hfound
      · exact ⟨Nat.le_refl _, Nat.le_refl _⟩
      · have hin := hbelow found hfound
        exact ⟨Nat.le_trans (Nat.le_add_right _ _) hin.1, hin.2⟩
    · refine List.pairwise_flatMap.mpr ⟨fun child hchild => (ih child ⟨_, hchild⟩).2, ?_⟩
      -- What is found below two siblings is kept apart by the siblings themselves.
      apply hpairs.imp_of_mem
      intro a b ha hb hab x hx y hy
      have hxa := (ih a ⟨_, ha⟩).1 x hx
      have hyb := (ih b ⟨_, hb⟩).1 y hy
      exact Or.inr (Nat.le_trans hxa.2 (Nat.le_trans hab hyb.1))

theorem explore_closed (s : Source) (choose : AtomView → Opening) (view : AtomView) :
    ∀ found ∈ s.explore choose view, s.inner (choose found) found ⊆ s.explore choose view := by
  induction view using (wellFounded_inner s).induction with
  | h view ih =>
    intro found hfound child hchild
    rw [explore_eq] at hfound ⊢
    refine List.mem_cons_of_mem view (List.mem_flatMap.mpr ?_)
    rcases List.mem_cons.mp hfound with rfl | hfound
    · refine ⟨child, hchild, ?_⟩
      rw [explore_eq]
      exact List.mem_cons_self
    · obtain ⟨middle, hmiddle, hfound⟩ := List.mem_flatMap.mp hfound
      exact ⟨middle, hmiddle, ih middle ⟨_, hmiddle⟩ found hfound hchild⟩

theorem explore_reached {choose : AtomView → Opening} (h : s.Reached offset view) :
    ∀ found ∈ s.explore choose view, s.Reached offset found := by
  induction view using (wellFounded_inner s).induction with
  | h view ih =>
    intro found hfound
    rw [explore_eq] at hfound
    rcases List.mem_cons.mp hfound with rfl | hfound
    · exact h
    · obtain ⟨child, hchild, hfound⟩ := List.mem_flatMap.mp hfound
      exact ih child ⟨_, hchild⟩ (h.inner _ hchild) found hfound

end Source

/-- Where a traversal starts: at one atom, or at all atoms from a position on. -/
inductive Start where
  | single | all

namespace Source

variable {s : Source} {offset : Nat}

def roots (s : Source) (offset : Nat) : Start → List AtomView
  | .single => (s.atomAt offset).toOption.toList
  | .all => (s.atoms offset).values

def walk (s : Source) (choose : AtomView → Opening) (views : List AtomView) : List AtomView :=
  views.flatMap (s.explore choose)

theorem reached_of_mem_roots {start : Start} {view : AtomView} (h : view ∈ s.roots offset start) :
    s.Reached offset view := by
  cases start with
  | all => exact .item h
  | single =>
    cases hatom : s.atomAt offset with
    | error e => simp [roots, hatom, Except.toOption] at h
    | ok found =>
      obtain rfl : view = found := by simpa [roots, hatom, Except.toOption] using h
      exact .atom hatom

theorem pairwise_roots (s : Source) (offset : Nat) (start : Start) :
    (s.roots offset start).Pairwise AtomView.Before := by
  cases start with
  | all => exact (s.atoms_spread offset).2
  | single => cases hatom : s.atomAt offset <;> simp [roots, hatom, Except.toOption]

theorem walk_pairwise {choose : AtomView → Opening} {views : List AtomView}
    (h : views.Pairwise AtomView.Before) :
    (s.walk choose views).Pairwise fun a b => b.Within a ∨ a.Before b := by
  refine List.pairwise_flatMap.mpr ⟨fun view _ => (s.explore_spread choose view).2, ?_⟩
  apply h.imp
  intro a b hab x hx y hy
  have hxa := (s.explore_spread choose a).1 x hx
  have hyb := (s.explore_spread choose b).1 y hy
  exact Or.inr (Nat.le_trans hxa.2 (Nat.le_trans hab hyb.1))

/-- Headers that lie one behind the other take eight bytes each. -/
theorem length_le_of_headers {views : List AtomView} {first stop : Nat}
    (hpairs : views.Pairwise fun a b => a.offset + 8 ≤ b.offset)
    (hin : ∀ view ∈ views, first ≤ view.offset ∧ view.offset + 8 ≤ stop) :
    8 * views.length ≤ stop - first := by
  induction views generalizing first with
  | nil => exact Nat.zero_le _
  | cons view rest ih =>
    obtain ⟨hhead, htail⟩ := List.pairwise_cons.mp hpairs
    have hview := hin view List.mem_cons_self
    have hrest := @ih (view.offset + 8) htail
      fun x hx => ⟨hhead x hx, (hin x (List.mem_cons_of_mem view hx)).2⟩
    rw [List.length_cons]
    omega

end Source

/-- In any buffer and by any vocabulary: every view that can be reached shows the buffer
inside its bounds, what is found in a view lies in its body and in order, and a traversal
that opens every view once ends, meets views that are nested or apart, and has room for
their headers. -/
theorem reached_contained (s : Source) (offset : Nat) :
    (∀ view, s.Reached offset view →
      view.body = s.block.span (view.offset + 8) view.bodySize.toNat ∧
      view.offset + 8 + view.bodySize.toNat ≤ s.size ∧ s.holds view = true) ∧
    (∀ way view, (s.inner way view).Pairwise AtomView.Before ∧
      ∀ child ∈ s.inner way view,
        child.Within view ∧ child.bodySize.toNat + 8 ≤ view.bodySize.toNat) ∧
    (WellFounded fun child view => ∃ way, child ∈ s.inner way view) ∧
    ∀ start choose,
      let roots := s.roots offset start
      let walk := s.walk choose roots
      roots.Pairwise AtomView.Before ∧ roots ⊆ walk ∧
      (∀ view ∈ walk, s.Reached offset view ∧ s.inner (choose view) view ⊆ walk) ∧
      (walk.Pairwise fun a b => b.Within a ∨ a.Before b) ∧
      (walk.Pairwise fun a b => a.offset + 8 ≤ b.offset) ∧
      walk.length ≤ s.size / 8 := by
  refine ⟨?_, ?_, s.wellFounded_inner, ?_⟩
  · intro view hview
    have hlies := hview.liesIn
    exact ⟨hlies.body_eq, hlies.stop_le, Source.holds_of_liesIn hlies⟩
  · intro way view
    refine ⟨(s.inner_spread way view).2, fun child hchild => ?_⟩
    have hwithin := Source.within_of_inner hchild
    exact ⟨hwithin, Source.bodySize_of_within hwithin⟩
  · intro start choose roots walk
    have hreached : ∀ view ∈ walk, s.Reached offset view := by
      intro view hview
      obtain ⟨root, hroot, hview⟩ := List.mem_flatMap.mp hview
      exact Source.explore_reached (Source.reached_of_mem_roots hroot) view hview
    have hpairs : walk.Pairwise fun a b => b.Within a ∨ a.Before b :=
      Source.walk_pairwise (s.pairwise_roots offset start)
    have hheaders : walk.Pairwise fun a b => a.offset + 8 ≤ b.offset := by
      apply hpairs.imp
      rintro a b (hwithin | hbefore)
      · exact hwithin.1
      · exact Nat.le_trans a.offset_add_le_stop hbefore
    refine ⟨s.pairwise_roots offset start, ?_, ?_, hpairs, hheaders, ?_⟩
    · intro root hroot
      refine List.mem_flatMap.mpr ⟨root, hroot, ?_⟩
      rw [Source.explore_eq]
      exact List.mem_cons_self
    · intro view hview
      refine ⟨hreached view hview, fun child hchild => ?_⟩
      obtain ⟨root, hroot, hview⟩ := List.mem_flatMap.mp hview
      exact List.mem_flatMap.mpr ⟨root, hroot, s.explore_closed choose root view hview hchild⟩
    · have hcount := @Source.length_le_of_headers walk 0 s.size hheaders fun view hview =>
        ⟨Nat.zero_le _, Nat.le_trans view.offset_add_le_stop (hreached view hview).liesIn.stop_le⟩
      omega

end AtomWire
