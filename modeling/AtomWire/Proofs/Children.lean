import AtomWire.Proofs.Rereading
import AtomWire.Proofs.Routines
import AtomWire.Proofs.Tilings

/-!
# Children counted in three ways

A host can have the children of a tuple counted, or read one header after another by its
own offset until the body of the tuple is over. The tuple only asks that the bodies of its
children end in it, and a header asks that padding ends in the memory too. Both find the
same children, since the padding of the tuple makes up for what is cut off at its end.
-/

namespace AtomWire

set_option autoImplicit false

namespace Source

variable {s : Source} {offset : Nat} {view : AtomView} {children : Region AtomView}

/-- The atom at an offset is a tuple, and these are its children. -/
structure TupleAt (s : Source) (offset : Nat) (view : AtomView) (children : Region AtomView) :
    Prop where
  atom : s.atomAt offset = .ok view
  type_eq : view.type = s.vocabulary.id .tuple
  opened : s.tuple view = .ok children

namespace TupleAt

theorem bind_eq (h : s.TupleAt offset view children) :
    s.atomAt offset >>= s.tuple = .ok children := by
  rw [h.atom, ok_bind, h.opened]

theorem seated (h : s.TupleAt offset view children) : s.Seated view := Below.seated h.atom .self

theorem offset_eq (h : s.TupleAt offset view children) : view.offset = offset := by
  obtain ⟨_, rfl⟩ := atomAt_eq_ok_iff.mp h.atom
  rfl

theorem children_eq (h : s.TupleAt offset view children) :
    children = s.regionOf view 0 (Layout.atoms .malformedContainer) := by
  obtain ⟨_, _, hchildren⟩ := bind_eq_ok_iff.mp h.opened
  cases hchildren
  rfl

/-- The items of a tuple; only the last one can be an error. -/
theorem items_cases (h : s.TupleAt offset view children) :
    ∃ values : List AtomView, children.count = values.length ∧
      (children.items = values.map .ok ∨
        children.items = values.map .ok ++ [.error .malformedContainer]) := by
  obtain rfl := h.children_eq
  have hstop : view.stop ≤ s.size := by
    have hpadded := h.seated.padded_le
    rw [h.seated.stop_eq]
    unfold Block.paddedEnd at hpadded
    omega
  exact (Region.parses hstop (.inl rfl)).counted

end TupleAt

/-- No atom and no tuple is malformed before its children are looked at. -/
theorem tupleAt_or_error (s : Source) (offset : Nat) :
    (∃ view children, s.TupleAt offset view children) ∨
      ∃ e, e ≠ .malformedContainer ∧ s.atomAt offset >>= s.tuple = .error e := by
  cases hatom : s.atomAt offset with
  | error e =>
    refine .inr ⟨e, ?_, rfl⟩
    rintro rfl
    simp only [atomAt, headerAt, ensure_bind] at hatom
    split_ifs at hatom <;> cases hatom
  | ok view =>
    cases hopened : s.tuple view with
    | error e =>
      refine .inr ⟨e, ?_, hopened⟩
      rintro rfl
      simp only [tuple, openAs, body, ensure_bind] at hopened
      split_ifs at hopened <;> cases hopened
    | ok children =>
      obtain ⟨_, hopen, _⟩ := bind_eq_ok_iff.mp hopened
      exact .inl ⟨view, children, hatom, (openAs_eq_ok_iff.mp hopen).2.1, hopened⟩

end Source

namespace Host

variable {lexicon : Option Lexicon} {memory : Memory} {s : Source} {pos next offset : Nat}
  {view : AtomView} {children : Region AtomView}

/-- Where the next atom starts, as a caller finds it stored by the header at a position. -/
def nextOffset (lexicon : Option Lexicon) (memory : Memory) (pos : Nat) : Except Status Nat :=
  let header := Routine.readHeader lexicon memory pos true
  match header.stores.findSome? Store.next? with
  | some next => .ok next
  | none => .error header.status

theorem nextOffset_eq_ok_iff (hsource : sourceOf lexicon memory = some s) :
    nextOffset lexicon memory pos = .ok next ↔
      s.block.paddedEnd pos ≤ s.size ∧ next = s.block.paddedEnd pos := by
  rw [nextOffset, Routine.readHeader_eq, readHeader, readAtom_of_source hsource,
    Routine.ofAnswer_ofExcept]
  cases hatom : s.atomAt pos with
  | error e =>
    have hnot : ¬ s.block.paddedEnd pos ≤ s.size := fun hle => by
      rw [Source.atomAt_eq_ok_iff.mpr ⟨hle, rfl⟩] at hatom
      cases hatom
    simp [hnot]
  | ok view =>
    obtain ⟨hle, rfl⟩ := Source.atomAt_eq_ok_iff.mp hatom
    change Except.ok (s.block.paddedEnd pos) = .ok next ↔ _
    simp [hle, eq_comm]

theorem lt_of_nextOffset (h : nextOffset lexicon memory pos = .ok next) : pos < next := by
  cases hsource : sourceOf lexicon memory with
  | none =>
    have hfail : Routine.readHeader lexicon memory pos true = .fail .nullPointer := by
      simp [Routine.readHeader, Routine.atomAt, hsource]
    simp [nextOffset, hfail] at h
  | some s =>
    obtain ⟨_, rfl⟩ := (nextOffset_eq_ok_iff hsource).mp h
    unfold Block.paddedEnd Block.bodyEnd headerSize
    omega

/-- Reads one header after another from a position until `stop` is reached, and counts them.
The first one that cannot be read ends it. -/
def countHeaders (lexicon : Option Lexicon) (memory : Memory) (stop pos : Nat) :
    Except Status Nat :=
  if pos < stop then
    match h : nextOffset lexicon memory pos with
    | .error status => .error status
    | .ok next =>
      have : pos < next := lt_of_nextOffset h
      (countHeaders lexicon memory stop next).map (· + 1)
  else .ok 0
termination_by stop - pos

theorem countHeaders_of_le {stop : Nat} (h : stop ≤ pos) :
    countHeaders lexicon memory stop pos = .ok 0 := by
  rw [countHeaders, if_neg (Nat.not_lt.mpr h)]

theorem countHeaders_of_ok {stop : Nat} (hpos : pos < stop)
    (h : nextOffset lexicon memory pos = .ok next) :
    countHeaders lexicon memory stop pos =
      (countHeaders lexicon memory stop next).map (· + 1) := by
  rw [countHeaders, if_pos hpos]
  split
  · rename_i he
    rw [h] at he
    cases he
  · rename_i he
    rw [h] at he
    cases he
    rfl

/-- A child that ends its body in a tuple ends its padding where the tuple does. -/
theorem nextOffset_of_bodyEnd_le (hsource : sourceOf lexicon memory = some s)
    (hview : s.Seated view) (halign : pos % 8 = view.offset % 8)
    (hbody : s.block.bodyEnd pos ≤ view.stop) :
    nextOffset lexicon memory pos = .ok (s.block.paddedEnd pos) := by
  rw [nextOffset_eq_ok_iff hsource]
  rw [hview.stop_eq] at hbody
  have halign : (pos + headerSize) % 8 = (view.offset + headerSize) % 8 := by omega
  exact ⟨Nat.le_trans (add_padding_le halign hbody) hview.padded_le, rfl⟩

/-- Going from header to header meets the children of a tuple. -/
theorem countHeaders_of_items (hsource : sourceOf lexicon memory = some s)
    (hview : s.Seated view) {values : List AtomView} (halign : pos % 8 = view.offset % 8)
    (hitems : (s.regionOf view 0 (Layout.atoms .malformedContainer)).itemsFrom pos =
      values.map .ok) :
    countHeaders lexicon memory view.stop pos = .ok values.length := by
  induction pos using Region.itemsFrom_induction
    (s.regionOf view 0 (Layout.atoms .malformedContainer)) generalizing values with
  | behind pos hbehind =>
    rw [Region.itemsFrom_of_le hbehind, eq_comm, List.map_eq_nil_iff] at hitems
    rw [hitems]
    exact countHeaders_of_le hbehind
  | error pos e hpos hitem =>
    rw [Region.itemsFrom_of_error hpos hitem] at hitems
    cases values <;> simp at hitems
  | record pos value hpos hchild ih =>
    have hitem := Region.itemAt_eq_ok_iff.mpr ⟨value, hchild, rfl, rfl⟩
    obtain ⟨hbody, hvalue⟩ := Block.childAt_eq_ok_iff.mp hchild
    have hnext : value.next = min (s.block.paddedEnd pos) view.stop := by
      rw [hvalue]
      rfl
    rw [Region.itemsFrom_of_ok hpos hitem] at hitems
    obtain ⟨_, rest, rfl, _, hrest⟩ := List.map_eq_cons_iff.mp hitems.symm
    have htail : countHeaders lexicon memory view.stop (s.block.paddedEnd pos) =
        .ok rest.length := by
      by_cases hcut : view.stop ≤ s.block.paddedEnd pos
      · -- No child follows, even if padding was cut off and the header leads farther.
        rw [hnext, Nat.min_eq_right hcut, Region.itemsFrom_of_le (Nat.le_refl view.stop),
          List.map_eq_nil_iff] at hrest
        rw [hrest]
        exact countHeaders_of_le hcut
      · have hsame : value.next = s.block.paddedEnd pos := by omega
        rw [← hsame]
        refine ih ?_ hrest.symm
        have hmod := add_padding_mod (s.block.sizeAt pos).toNat
        simp only [hsame, Block.paddedEnd, Block.bodyEnd, headerSize]
        omega
    have hheader := nextOffset_of_bodyEnd_le hsource hview halign hbody
    have hpos : pos < view.stop := hpos
    rw [countHeaders_of_ok hpos hheader, htail]
    rfl

section Counting

theorem countItems_map_ok (values : List AtomView) :
    countItems (values.map .ok) = .ok values.length := by
  induction values with
  | nil => rfl
  | cons value rest ih =>
    rw [List.map_cons, countItems, ih]
    rfl

theorem countItems_error_last (values : List AtomView) (e : WireError) :
    countItems (values.map .ok ++ [.error e]) = .error e := by
  induction values with
  | nil => rfl
  | cons value rest ih =>
    rw [List.map_cons, List.cons_append, countItems, ih]
    rfl

variable (hsource : sourceOf lexicon memory = some s)
include hsource

theorem tupleChildCount_of_source : Routine.tupleChildCount lexicon memory offset true =
    .check (s.atomAt offset >>= s.tuple >>= fun children => countItems children.items) >>=
      fun count => .storeAll [.count count] := by
  rw [Routine.tupleChildCount_eq, tupleChildCount, readAtom_of_source hsource,
    Routine.ofAnswer_ofExcept]
  cases s.atomAt offset <;> rfl

theorem tupleChildCount_status_of_error {e : WireError}
    (h : s.atomAt offset >>= s.tuple = .error e) :
    (Routine.tupleChildCount lexicon memory offset true).status = .wire e := by
  rw [tupleChildCount_of_source hsource, h]
  rfl

/-- A tuple without an error is counted; another one stops the count at its last item. -/
theorem tupleChildCount_cases (h : s.TupleAt offset view children) :
    ∃ values : List AtomView, children.count = values.length ∧
      (children.items = values.map .ok ∧
        Routine.tupleChildCount lexicon memory offset true = .storeAll [.count values.length] ∨
      children.items = values.map .ok ++ [.error .malformedContainer] ∧
        Routine.tupleChildCount lexicon memory offset true =
          .fail (.wire .malformedContainer)) := by
  rw [tupleChildCount_of_source hsource, h.bind_eq, ok_bind]
  obtain ⟨values, hcount, hitems | hitems⟩ := h.items_cases
  · refine ⟨values, hcount, .inl ⟨hitems, ?_⟩⟩
    rw [hitems, countItems_map_ok]
    rfl
  · refine ⟨values, hcount, .inr ⟨hitems, ?_⟩⟩
    rw [hitems, countItems_error_last]
    rfl

theorem tupleChildCount_ok_iff (h : s.TupleAt offset view children) :
    (Routine.tupleChildCount lexicon memory offset true).status = .ok ↔
      ∀ e, .error e ∉ children.items := by
  obtain ⟨values, _, ⟨hitems, hcall⟩ | ⟨hitems, hcall⟩⟩ := tupleChildCount_cases hsource h
  · simp [hitems, hcall, Routine.status, Routine.storeAll]
  · simp [hitems, hcall]

theorem tupleChildCount_stores (h : s.TupleAt offset view children)
    (hok : (Routine.tupleChildCount lexicon memory offset true).status = .ok) :
    (Routine.tupleChildCount lexicon memory offset true).stores = [.count children.count] := by
  obtain ⟨values, hcount, ⟨_, hcall⟩ | ⟨_, hcall⟩⟩ := tupleChildCount_cases hsource h
  · rw [hcall, hcount]
    rfl
  · rw [hcall] at hok
    cases hok

theorem tupleChildCount_malformed_iff (h : s.TupleAt offset view children) :
    (Routine.tupleChildCount lexicon memory offset true).status = .wire .malformedContainer ↔
      ∃ e, children.items.getLast? = some (.error e) := by
  obtain ⟨values, _, ⟨hitems, hcall⟩ | ⟨hitems, hcall⟩⟩ := tupleChildCount_cases hsource h
  · simp [hitems, hcall, Routine.status, Routine.storeAll, List.getLast?_map]
  · simp [hitems, hcall]

theorem countHeaders_eq_count (h : s.TupleAt offset view children)
    (hitems : ∀ e, .error e ∉ children.items) :
    countHeaders lexicon memory (offset + 8 + view.bodySize.toNat) (offset + 8) =
      .ok children.count := by
  obtain ⟨values, hcount, hok | herror⟩ := h.items_cases
  · rw [hcount, ← h.offset_eq]
    rw [h.children_eq] at hok
    exact countHeaders_of_items hsource h.seated (Nat.add_mod_right view.offset 8) hok
  · simp [herror] at hitems

end Counting

/-- Wherever a host can read: the children of a tuple are counted if and only if none of them
is an error. Then there are as many as there are headers to go through, all of which can be
read. If there is an error, it is the last item, and the tuple is malformed. -/
theorem childCount_exact (lexicon : Option Lexicon) (memory : Memory) (s : Source) (offset : Nat)
    (hsource : sourceOf lexicon memory = some s) :
    let call := Routine.tupleChildCount lexicon memory offset true
    (call.status = .ok ↔ ∃ view children, s.TupleAt offset view children ∧
      ∀ e, .error e ∉ children.items) ∧
    (∀ view children, s.TupleAt offset view children → call.status = .ok →
      call.stores = [.count children.count] ∧
      countHeaders lexicon memory (offset + 8 + view.bodySize.toNat) (offset + 8) =
        .ok children.count) ∧
    (call.status = .wire .malformedContainer ↔
      ∃ view children e, s.TupleAt offset view children ∧
        children.items.getLast? = some (.error e)) ∧
    (∀ view children e, s.TupleAt offset view children →
      children.items.getLast? = some (.error e) →
      ∃ before : List AtomView, children.items = before.map .ok ++ [.error e] ∧
        children.count = before.length) ∧
    (call.status ≠ .ok → call.status ≠ .wire .malformedContainer →
      ∃ e, s.atomAt offset >>= s.tuple = .error e ∧ call.status = .wire e) := by
  intro call
  refine ⟨⟨?_, ?_⟩, ?_, ⟨?_, ?_⟩, ?_, ?_⟩
  · intro hok
    rcases s.tupleAt_or_error offset with ⟨view, children, h⟩ | ⟨e, _, he⟩
    · exact ⟨view, children, h, (tupleChildCount_ok_iff hsource h).mp hok⟩
    · cases hok.symm.trans (tupleChildCount_status_of_error hsource he)
  · rintro ⟨view, children, h, hitems⟩
    exact (tupleChildCount_ok_iff hsource h).mpr hitems
  · intro view children h hok
    refine ⟨tupleChildCount_stores hsource h hok, ?_⟩
    exact countHeaders_eq_count hsource h ((tupleChildCount_ok_iff hsource h).mp hok)
  · intro hmalformed
    rcases s.tupleAt_or_error offset with ⟨view, children, h⟩ | ⟨e, hne, he⟩
    · obtain ⟨e, hlast⟩ := (tupleChildCount_malformed_iff hsource h).mp hmalformed
      exact ⟨view, children, e, h, hlast⟩
    · cases hmalformed.symm.trans (tupleChildCount_status_of_error hsource he)
      exact absurd rfl hne
  · rintro ⟨view, children, e, h, hlast⟩
    exact (tupleChildCount_malformed_iff hsource h).mpr ⟨e, hlast⟩
  · intro view children e h hlast
    obtain ⟨values, hcount, hitems | hitems⟩ := h.items_cases
    · simp [hitems, List.getLast?_map] at hlast
    · refine ⟨values, ?_, hcount⟩
      simp only [hitems, List.getLast?_concat, Option.some.injEq] at hlast
      rw [hitems, hlast]
  · intro hok hmalformed
    rcases s.tupleAt_or_error offset with ⟨view, children, h⟩ | ⟨e, _, he⟩
    · -- A tuple is either counted or malformed.
      obtain ⟨_, _, ⟨_, hcall⟩ | ⟨_, hcall⟩⟩ := tupleChildCount_cases hsource h
      · exact absurd (congrArg Routine.status hcall) hok
      · exact absurd (congrArg Routine.status hcall) hmalformed
    · exact ⟨e, he, tupleChildCount_status_of_error hsource he⟩

/-- A tuple of twelve bytes cuts off the padding of its only child, and has it all the same. -/
theorem childCount_exact_cut :
    let l : Lexicon := ⟨UriTable.empty, ⟨fun term => if term = .tuple then 1 else 0⟩⟩
    let memory : Memory := .given
      (word32 1 ++ word32 12 ++ word32 7 ++ word32 4 ++ word32 9 ++ word32 0)
    let call := Routine.tupleChildCount (some l) memory 0 true
    call.status = .ok ∧ call.stores = [.count 1] ∧
      countHeaders (some l) memory 20 8 = .ok 1 := by
  intro l memory call
  let s : Source := ⟨l.vocabulary, ⟨some 0,
    word32 1 ++ word32 12 ++ word32 7 ++ word32 4 ++ word32 9 ++ word32 0⟩⟩
  let view := s.block.viewAt 0 24
  let children := s.regionOf view 0 (Layout.atoms .malformedContainer)
  have htuple : s.TupleAt 0 view children := ⟨by cbv, rfl, by cbv⟩
  have hcount : children.count = 1 := by decide +kernel
  have hall : children.items.all Except.isOk = true := by decide +kernel
  have hitems : ∀ e, .error e ∉ children.items := fun e he => by
    cases List.all_eq_true.mp hall _ he
  obtain ⟨hok, hcounted, _⟩ := childCount_exact (some l) memory s 0 rfl
  have hok := hok.mpr ⟨view, children, htuple, hitems⟩
  obtain ⟨hstores, hheaders⟩ := hcounted view children htuple hok
  rw [hcount] at hstores hheaders
  exact ⟨hok, hstores, hheaders⟩

end Host

end AtomWire
