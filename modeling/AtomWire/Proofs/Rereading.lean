import AtomWire.Host.Read
import AtomWire.Proofs.Containment

/-!
# Atoms read again by their offsets

An atom in a container only has to end its body there, while an atom read by its offset
has to end its padding in the buffer. Below an atom that was read by its offset the two
come to the same: positions differ by multiples of eight, so no padding reaches farther
than the padding of the atom around it.
-/

namespace AtomWire

set_option autoImplicit false

theorem add_padding_le {a b m n : Nat} (halign : a % 8 = b % 8) (hle : a + m ≤ b + n) :
    a + m + padding m ≤ b + n + padding n := by
  unfold padding
  omega

namespace Region

variable {α : Type}

/-- Where the views of a region are, and that only the last one is cut short. -/
theorem itemsFrom_places (r : Region α) (f : α → AtomView)
    (hf : ∀ lead view, f (r.layout.make lead view) = view) (hlead : r.layout.lead % 8 = 0)
    (pos : Nat) :
    let items := (r.itemsFrom pos).map (Except.map f)
    ∀ view, .ok view ∈ items →
      view.offset % 8 = pos % 8 ∧ r.block.bodyEnd view.offset ≤ r.stop ∧
      view = r.block.viewAt view.offset (min (r.block.paddedEnd view.offset) r.stop) ∧
      (r.stop < r.block.paddedEnd view.offset → items.getLast? = some (.ok view)) := by
  induction pos using r.itemsFrom_induction with
  | behind pos hpos =>
    intro items view hview
    simp [items, itemsFrom_of_le hpos] at hview
  | error pos e hpos hitem =>
    intro items view hview
    simp [items, itemsFrom_of_error hpos hitem] at hview
  | record pos value hpos hchild ih =>
    intro items view hview
    have hitem := itemAt_eq_ok_iff.mpr ⟨value, hchild, rfl, rfl⟩
    obtain ⟨hbody, hvalue⟩ := Block.childAt_eq_ok_iff.mp hchild
    have hoffset : value.offset = pos + r.layout.lead := by
      rw [hvalue]
      rfl
    rw [← hoffset] at hbody hvalue
    have hnext : value.next = min (r.block.paddedEnd value.offset) r.stop := by
      rw [hvalue]
      rfl
    have hitems : items = .ok value :: (r.itemsFrom value.next).map (Except.map f) := by
      simp [items, itemsFrom_of_ok hpos hitem, hf]
    rw [hitems] at hview ⊢
    rcases List.mem_cons.mp hview with hhead | hrest
    · cases hhead
      refine ⟨by omega, hbody, hvalue, ?_⟩
      intro hcut
      have hend : r.stop ≤ value.next := by omega
      simp [itemsFrom_of_le hend]
    · obtain ⟨halign, hin, hview, hlast⟩ := ih view hrest
      -- Where another record follows, nothing was cut off before it.
      have hlt : value.next < r.stop := by
        apply Nat.lt_of_not_le
        intro hend
        simp [itemsFrom_of_le hend] at hrest
      have hpadded : value.next = r.block.paddedEnd value.offset := by omega
      refine ⟨?_, hin, hview, ?_⟩
      · rw [halign, hpadded, hoffset]
        have hmod := add_padding_mod (r.block.sizeAt (pos + r.layout.lead)).toNat
        simp only [Block.paddedEnd, Block.bodyEnd, headerSize]
        omega
      · intro hcut
        rw [List.getLast?_cons, hlast hcut]
        rfl

end Region

namespace Source

variable {s : Source} {way : Opening} {root view child : AtomView} {offset : Nat}

/-- The items in a container, an error at the end included; none if it cannot be opened so. -/
def innerItems (s : Source) (way : Opening) (view : AtomView) : List (Except WireError AtomView) :=
  match way with
  | .tuple => ((s.tuple view).toOption.map Region.items).getD []
  | .object =>
    ((s.object view).toOption.map fun o =>
      o.properties.items.map (Except.map Property.value)).getD []
  | .sequence =>
    ((s.sequence view).toOption.map fun q => q.events.items.map (Except.map Event.value)).getD []

/-- The view is the given one, or is found in it at any depth. -/
inductive Below (s : Source) (root : AtomView) : AtomView → Prop where
  | self : Below s root root
  | inner {view child : AtomView} (way : Opening) (hview : Below s root view)
      (h : child ∈ s.inner way view) : Below s root child

/-- How an item of a container lies in it. -/
structure Lodged (s : Source) (way : Opening) (view child : AtomView) : Prop where
  aligned : child.offset % 8 = view.offset % 8
  body_le : s.block.bodyEnd child.offset ≤ view.stop
  view_eq : child = s.block.viewAt child.offset (min (s.block.paddedEnd child.offset) view.stop)
  last : view.stop < s.block.paddedEnd child.offset →
    (s.innerItems way view).getLast? = some (.ok child)

theorem mem_inner_iff : child ∈ s.inner way view ↔ .ok child ∈ s.innerItems way view := by
  have hvalues : ∀ {α : Type} (r : Region α) (f : α → AtomView),
      child ∈ r.values.map f ↔ .ok child ∈ r.items.map (Except.map f) := by
    intro α r f
    simp only [Region.values, List.mem_map, List.mem_filterMap]
    constructor
    · rintro ⟨item, ⟨found, hfound, hok⟩, rfl⟩
      cases found with
      | error e => cases hok
      | ok value =>
        cases hok
        exact ⟨.ok item, hfound, rfl⟩
    · rintro ⟨found, hfound, hok⟩
      cases found with
      | error e => cases hok
      | ok value =>
        cases hok
        exact ⟨value, ⟨.ok value, hfound, rfl⟩, rfl⟩
  cases way with
  | tuple =>
    cases hopen : s.tuple view with
    | error e => simp [inner, innerItems, hopen, Except.toOption]
    | ok region => simpa [inner, innerItems, hopen, Except.toOption] using hvalues region id
  | object =>
    cases hopen : s.object view with
    | error e => simp [inner, innerItems, hopen, Except.toOption]
    | ok found =>
      simpa [inner, innerItems, hopen, Except.toOption] using
        hvalues found.properties Property.value
  | sequence =>
    cases hopen : s.sequence view with
    | error e => simp [inner, innerItems, hopen, Except.toOption]
    | ok found =>
      simpa [inner, innerItems, hopen, Except.toOption] using hvalues found.events Event.value

theorem regionOf_lodged {α : Type} (lead : Nat) (layout : Layout α) (f : α → AtomView)
    (hf : ∀ bytes view, f (layout.make bytes view) = view) (hlead : lead % 8 = 0)
    (hlayout : layout.lead % 8 = 0)
    (hitems : s.innerItems way view = (s.regionOf view lead layout).items.map (Except.map f))
    (h : .ok child ∈ s.innerItems way view) : s.Lodged way view child := by
  rw [hitems] at h
  obtain ⟨halign, hbody, hview, hlast⟩ :=
    (s.regionOf view lead layout).itemsFrom_places f hf hlayout (view.bodyOffset + lead) child h
  refine ⟨?_, hbody, hview, ?_⟩
  · unfold AtomView.bodyOffset headerSize at halign
    omega
  · intro hcut
    rw [hitems]
    exact hlast hcut

theorem lodged_of_inner (hchild : child ∈ s.inner way view) : s.Lodged way view child := by
  have h := mem_inner_iff.mp hchild
  cases way with
  | tuple =>
    cases hopen : s.tuple view with
    | error e => simp [innerItems, hopen, Except.toOption] at h
    | ok region =>
      obtain ⟨_, _, hregion⟩ := bind_eq_ok_iff.mp hopen
      cases hregion
      refine regionOf_lodged 0 (Layout.atoms .malformedContainer) id (fun _ _ => rfl) rfl rfl ?_ h
      simp [innerItems, hopen, Except.toOption]
  | object =>
    cases hopen : s.object view with
    | error e => simp [innerItems, hopen, Except.toOption] at h
    | ok found =>
      obtain ⟨_, _, hrest⟩ := bind_eq_ok_iff.mp hopen
      obtain ⟨_, hrest⟩ := ensure_eq_ok_iff.mp hrest
      obtain ⟨_, hfound⟩ := ensure_eq_ok_iff.mp hrest
      cases hfound
      refine regionOf_lodged 8 Layout.properties Property.value (fun _ _ => rfl) rfl rfl ?_ h
      simp [innerItems, hopen, Except.toOption]
  | sequence =>
    cases hopen : s.sequence view with
    | error e => simp [innerItems, hopen, Except.toOption] at h
    | ok found =>
      obtain ⟨body, _, hfound⟩ := bind_eq_ok_iff.mp hopen
      cases hfound
      refine regionOf_lodged 8 (Layout.events (s.unitOf (getWord32 body))) Event.value
        (fun _ _ => rfl) rfl (by simp [Layout.events]) ?_ h
      simp [innerItems, hopen, Except.toOption]

theorem atomAt_eq_ok_iff :
    s.atomAt offset = .ok view ↔ s.block.paddedEnd offset ≤ s.size ∧
      view = s.block.viewAt offset (s.block.paddedEnd offset) := by
  have hle : offset + headerSize ≤ s.block.paddedEnd offset := by
    unfold Block.paddedEnd Block.bodyEnd
    omega
  constructor
  · intro h
    obtain ⟨header, hheader, hview⟩ := bind_eq_ok_iff.mp h
    obtain ⟨_, hrest⟩ := ensure_eq_ok_iff.mp hheader
    obtain ⟨hend, hrest⟩ := ensure_eq_ok_iff.mp hrest
    cases hrest
    cases hview
    exact ⟨of_decide_eq_true hend, rfl⟩
  · rintro ⟨hend, rfl⟩
    have hstart : offset + headerSize ≤ s.size := by omega
    simp [atomAt, headerAt, ensure, hstart, hend]

/-- An atom that ends in the source with its padding, and that the view shows as it is. -/
structure Seated (s : Source) (view : AtomView) : Prop where
  padded_le : s.block.paddedEnd view.offset ≤ s.size
  view_eq : view = s.block.viewAt view.offset view.next

theorem Seated.stop_eq (h : s.Seated view) : view.stop = s.block.bodyEnd view.offset := by
  rw [h.view_eq]
  rfl

theorem Lodged.seated (h : s.Lodged way view child) (hview : s.Seated view) : s.Seated child := by
  constructor
  · have hbody := h.body_le
    rw [hview.stop_eq] at hbody
    have halign : (child.offset + headerSize) % 8 = (view.offset + headerSize) % 8 := by
      have := h.aligned
      omega
    exact Nat.le_trans (add_padding_le halign hbody) hview.padded_le
  · have heq := h.view_eq
    rw [heq]
    rfl

theorem Below.seated (hroot : s.atomAt offset = .ok root) (h : s.Below root view) :
    s.Seated view := by
  induction h with
  | self =>
    obtain ⟨hend, rfl⟩ := atomAt_eq_ok_iff.mp hroot
    exact ⟨hend, rfl⟩
  | inner way _ hchild ih => exact (lodged_of_inner hchild).seated ih

theorem Seated.atomAt_eq (h : s.Seated view) :
    s.atomAt view.offset = .ok { view with next := s.block.paddedEnd view.offset } := by
  apply atomAt_eq_ok_iff.mpr
  refine ⟨h.padded_le, ?_⟩
  rw [h.view_eq]
  rfl

/-- Whatever is asked of the atom at the offset of a view is answered as for the view. -/
structure AnswersAlike (s : Source) (view : AtomView) : Prop where
  scalar : s.atomAt view.offset >>= s.scalar = s.scalar view
  scalarOf (kind : ScalarKind) : s.atomAt view.offset >>= s.scalarOf kind = s.scalarOf kind view
  text (form : TextForm) : s.atomAt view.offset >>= s.text form = s.text form view
  literal : s.atomAt view.offset >>= s.literal = s.literal view
  chunk : s.atomAt view.offset >>= s.chunk = s.chunk view
  vector : s.atomAt view.offset >>= s.vector = s.vector view
  tuple : s.atomAt view.offset >>= s.tuple = s.tuple view
  object : s.atomAt view.offset >>= s.object = s.object view
  sequence : s.atomAt view.offset >>= s.sequence = s.sequence view

/-- No read looks at where the next atom starts. -/
theorem Seated.answersAlike (h : s.Seated view) : s.AnswersAlike view := by
  constructor <;> intros <;> rw [h.atomAt_eq] <;> rfl

end Source

namespace Host

variable {s : Source} {lexicon : Option Lexicon} {memory : Memory} {view : AtomView}

/-- The text of an answer, copied into the room of the caller. -/
def TextAnswer.ofExcept (room : Option Bytes) : Except WireError Bytes → TextAnswer
  | .ok text => copyText text room
  | .error e => ⟨.wire e, none, room⟩

/-- The reads for a host at the offset of a view answer as the source does for the view. -/
structure AnswersAlike (lexicon : Option Lexicon) (memory : Memory) (s : Source)
    (view : AtomView) : Prop where
  header : ∃ next, readHeader lexicon memory view.offset true =
    ⟨.ok, some ⟨view.type, view.bodySize, next⟩⟩
  scalar (kind : ScalarKind) :
    readScalar kind lexicon memory view.offset true = .ofExcept (s.scalarOf kind view)
  string (room : Option Bytes) :
    readString lexicon memory view.offset room true = .ofExcept room (s.text .string view)
  children : tupleChildCount lexicon memory view.offset true =
    .ofExcept (s.tuple view >>= fun region => countItems region.items)

theorem readAtom_seated {α : Type} (hsource : sourceOf lexicon memory = some s)
    (hview : s.Seated view) (f : Source → AtomView → Except WireError α) :
    readAtom lexicon memory view.offset true f =
      .ofExcept (f s { view with next := s.block.paddedEnd view.offset }) := by
  simp only [readAtom, hsource, hview.atomAt_eq, ok_bind]

theorem answersAlike_of_seated (hsource : sourceOf lexicon memory = some s)
    (hview : s.Seated view) : AnswersAlike lexicon memory s view := by
  constructor
  · exact ⟨s.block.paddedEnd view.offset, readAtom_seated hsource hview _⟩
  · intro kind
    exact readAtom_seated hsource hview _
  · intro room
    have htext : s.text .string { view with next := s.block.paddedEnd view.offset } =
        s.text .string view := rfl
    rw [readString, readAtom_seated hsource hview, htext]
    cases s.text .string view <;> rfl
  · exact readAtom_seated hsource hview _

end Host

/-- In any buffer and by any vocabulary: what is found below an atom that was read by its
offset can be read by its own offset, with the same answers. Only the start of the next
atom may differ, if the end of a container cuts off the padding of its last item. -/
theorem reread_below (s : Source) (offset : Nat) (root view : AtomView)
    (hroot : s.atomAt offset = .ok root) (hbelow : s.Below root view) :
    (∃ again, s.atomAt view.offset = .ok again ∧ again.type = view.type ∧
      again.bodySize = view.bodySize ∧ again.offset = view.offset ∧ again.body = view.body ∧
      (view = root → again.next = view.next) ∧
      ∀ way parent, view ∈ s.inner way parent →
        (again.next ≤ parent.stop → view.next = again.next) ∧
        (parent.stop < again.next → view.next = parent.stop ∧
          (s.innerItems way parent).getLast? = some (.ok view))) ∧
    s.AnswersAlike view ∧
    ∀ lexicon memory, Host.sourceOf lexicon memory = some s →
      Host.AnswersAlike lexicon memory s view := by
  have hseated := hbelow.seated hroot
  refine ⟨⟨_, hseated.atomAt_eq, rfl, rfl, rfl, rfl, ?_, ?_⟩, hseated.answersAlike, ?_⟩
  · rintro rfl
    obtain ⟨_, hview⟩ := Source.atomAt_eq_ok_iff.mp hroot
    rw [hview]
    rfl
  · intro way parent hparent
    have hlodged := Source.lodged_of_inner hparent
    have hnext : view.next = min (s.block.paddedEnd view.offset) parent.stop := by
      rw [hlodged.view_eq]
      rfl
    refine ⟨fun hle => hnext.trans (Nat.min_eq_left hle), fun hcut => ⟨?_, hlodged.last hcut⟩⟩
    exact hnext.trans (Nat.min_eq_right (Nat.le_of_lt hcut))
  · intro lexicon memory hsource
    exact Host.answersAlike_of_seated hsource hseated

/-- A tuple of twelve bytes ends right behind the body of its only item. -/
theorem reread_below_cut :
    let s : Source := ⟨⟨fun term => if term = .tuple then 1 else 0⟩, ⟨some 0,
      word32 1 ++ word32 12 ++ word32 7 ++ word32 4 ++ word32 9 ++ word32 0⟩⟩
    let root := s.block.viewAt 0 24
    let item := s.block.viewAt 8 20
    s.atomAt 0 = .ok root ∧ s.Below root item ∧ s.AnswersAlike item ∧
      (s.innerItems .tuple root).getLast? = some (.ok item) ∧
      s.atomAt 8 = .ok (s.block.viewAt 8 24) := by
  intro s root item
  have hroot : s.atomAt 0 = .ok root := by cbv
  have hinner : item ∈ s.inner .tuple root := by decide +kernel
  have hbelow : s.Below root item := .inner .tuple .self hinner
  have hfound : s.atomAt 8 = .ok (s.block.viewAt 8 24) := by cbv
  obtain ⟨⟨again, hagain, _, _, _, _, _, hnext⟩, halike, _⟩ :=
    reread_below s 0 root item hroot hbelow
  obtain rfl : s.block.viewAt 8 24 = again := Except.ok.inj (hfound.symm.trans hagain)
  have hcut : root.stop < 24 := by decide +kernel
  exact ⟨hroot, hbelow, halike, ((hnext .tuple root hinner).2 hcut).2, hfound⟩

end AtomWire
