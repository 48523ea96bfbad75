import AtomWire.Bytes.Lemmas
import AtomWire.Proofs.Containment
import AtomWire.Proofs.Rounding
import AtomWire.Source.Probe

/-!
# Probes of regions and vectors

Over less than `2 ^ 63` bytes no computation of a probe wraps, and every load lies between
the bounds that the guards before it have made sure of. So a probe ends as the reading on
numbers does. `EndsAs` says both at once and is put together step by step: of one atom, of
one record, of a walk over all records, and of the elements of a vector.
-/

namespace AtomWire

set_option autoImplicit false

/-- The bytes lie between the bounds, and the arithmetic does not wrap. -/
def Access.Sound (first stop : Nat) : Access → Prop
  | load start count => first ≤ start ∧ start + count ≤ stop
  | sum x y => x.toNat + y.toNat < 2 ^ 64
  | difference x y => y.toNat ≤ x.toNat
  | product x y => x.toNat * y.toNat < 2 ^ 64

namespace Probe

variable {α β : Type} {first stop : Nat}

def conclude (log : List Access) : Except WireError α → EStateM.Result WireError (List Access) α
  | .ok a => .ok a log
  | .error e => .error e log

/-- Whatever was noted before, the probe has the outcome and adds sound notes only. -/
def EndsAs (first stop : Nat) (p : Probe α) (outcome : Except WireError α) : Prop :=
  ∀ log, ∃ notes, (∀ access ∈ notes, access.Sound first stop) ∧
    p.run log = conclude (notes ++ log) outcome

namespace EndsAs

variable {p : Probe α} {o : Except WireError α}

theorem outcome_eq (h : EndsAs first stop p o) : p.outcome = o := by
  obtain ⟨notes, _, hrun⟩ := h []
  rw [outcome, hrun]
  cases o <;> rfl

theorem sound (h : EndsAs first stop p o) : ∀ access ∈ p.accesses, access.Sound first stop := by
  obtain ⟨notes, hnotes, hrun⟩ := h []
  have hlog : p.accesses = notes := by
    rw [accesses, hrun, List.append_nil]
    cases o <;> rfl
  rwa [hlog]

theorem pure (a : α) : EndsAs first stop (Pure.pure a) (.ok a) := fun _ => ⟨[], nofun, rfl⟩

theorem check (o : Except WireError α) : EndsAs first stop (Probe.check o) o := by
  intro log
  cases o with
  | ok a => exact ⟨[], nofun, rfl⟩
  | error e => exact ⟨[], nofun, rfl⟩

theorem note (access : Access) (h : access.Sound first stop) :
    EndsAs first stop (Probe.note access) (.ok ()) :=
  fun _ => ⟨[access], by simpa using h, rfl⟩

theorem attempt (h : EndsAs first stop p o) : EndsAs first stop (Probe.attempt p) (.ok o) := by
  intro log
  obtain ⟨notes, hnotes, hrun⟩ := h log
  refine ⟨notes, hnotes, ?_⟩
  rw [EStateM.run] at hrun ⊢
  rw [Probe.attempt, hrun]
  cases o <;> rfl

/-- One probe after the other ends as one outcome after the other. -/
theorem bind {f : α → Probe β} {g : α → Except WireError β} (hp : EndsAs first stop p o)
    (hf : ∀ a, o = .ok a → EndsAs first stop (f a) (g a)) :
    EndsAs first stop (p >>= f) (o >>= g) := by
  intro log
  obtain ⟨notes, hnotes, hrun⟩ := hp log
  cases o with
  | error e =>
    refine ⟨notes, hnotes, ?_⟩
    rw [EStateM.run_bind, hrun]
    rfl
  | ok a =>
    obtain ⟨more, hmore, hrest⟩ := hf a rfl (notes ++ log)
    refine ⟨more ++ notes, ?_, ?_⟩
    · intro access haccess
      rcases List.mem_append.mp haccess with hnew | hold
      · exact hmore access hnew
      · exact hnotes access hold
    · rw [EStateM.run_bind, hrun, List.append_assoc]
      exact hrest

theorem map (h : EndsAs first stop p o) (f : α → β) :
    EndsAs first stop (p >>= fun a => Pure.pure (f a)) (o >>= fun a => Pure.pure (f a)) :=
  h.bind fun a _ => .pure (f a)

end EndsAs

section Steps

variable {o : Except WireError α} {x y : UInt64}

theorem endsAs_pass {f : Unit → Probe α} {condition : Bool} {e : WireError}
    (hc : condition = true) (h : EndsAs first stop (f ()) o) :
    EndsAs first stop (check (ensure condition e) >>= f) o := by
  subst hc
  exact h

theorem endsAs_fail {f : Unit → Probe α} {condition : Bool} {e : WireError}
    (hc : condition = false) :
    EndsAs first stop (check (ensure condition e) >>= f) (.error e) := by
  subst hc
  exact fun _ => ⟨[], nofun, rfl⟩

theorem endsAs_ensure {f : Unit → Probe α} {g : Unit → Except WireError α} {c d : Bool}
    {e : WireError} (hc : c = d) (h : d = true → EndsAs first stop (f ()) (g ())) :
    EndsAs first stop (check (ensure c e) >>= f) (ensure d e >>= g) := by
  subst hc
  cases c with
  | false => exact endsAs_fail rfl
  | true => exact endsAs_pass rfl (h rfl)

theorem endsAs_load {b : Block} {count : Nat} {f : Bytes → Probe α} (hfirst : first ≤ x.toNat)
    (hstop : x.toNat + count ≤ stop)
    (h : EndsAs first stop (f (slice b.bytes x.toNat count)) o) :
    EndsAs first stop (load b x count >>= f) o := by
  have hload : EndsAs first stop (load b x count) (.ok (slice b.bytes x.toNat count)) :=
    (EndsAs.note (.load x.toNat count) ⟨hfirst, hstop⟩).map fun _ => slice b.bytes x.toNat count
  refine hload.bind (g := fun _ => o) ?_
  rintro _ ⟨⟩
  exact h

theorem endsAs_add {f : UInt64 → Probe α} (hfit : x.toNat + y.toNat < 2 ^ 64)
    (h : ∀ z : UInt64, z.toNat = x.toNat + y.toNat → EndsAs first stop (f z) o) :
    EndsAs first stop (add x y >>= f) o := by
  have hadd : EndsAs first stop (add x y) (.ok (x + y)) :=
    (EndsAs.note (.sum x y) hfit).map fun _ => x + y
  refine hadd.bind (g := fun _ => o) ?_
  rintro _ ⟨⟩
  refine h _ ?_
  rw [UInt64.toNat_add, Nat.mod_eq_of_lt hfit]

theorem endsAs_sub {f : UInt64 → Probe α} (hle : y.toNat ≤ x.toNat)
    (h : ∀ z : UInt64, z.toNat = x.toNat - y.toNat → EndsAs first stop (f z) o) :
    EndsAs first stop (sub x y >>= f) o := by
  have hsub : EndsAs first stop (sub x y) (.ok (x - y)) :=
    (EndsAs.note (.difference x y) hle).map fun _ => x - y
  refine hsub.bind (g := fun _ => o) ?_
  rintro _ ⟨⟩
  exact h _ (UInt64.toNat_sub_of_le _ _ hle)

theorem endsAs_mul {f : UInt64 → Probe α} (hfit : x.toNat * y.toNat < 2 ^ 64)
    (h : ∀ z : UInt64, z.toNat = x.toNat * y.toNat → EndsAs first stop (f z) o) :
    EndsAs first stop (mul x y >>= f) o := by
  have hmul : EndsAs first stop (mul x y) (.ok (x * y)) :=
    (EndsAs.note (.product x y) hfit).map fun _ => x * y
  refine hmul.bind (g := fun _ => o) ?_
  rintro _ ⟨⟩
  refine h _ ?_
  rw [UInt64.toNat_mul, Nat.mod_eq_of_lt hfit]

end Steps

end Probe

/-- A header of eight bytes holds the type and the size of the body. -/
theorem Block.header_words (b : Block) (pos : Nat) :
    getWord32 (slice b.bytes pos 8) = b.typeAt pos ∧
      getWord32 ((slice b.bytes pos 8).drop 4) = b.sizeAt pos := by
  rw [drop_slice]
  exact ⟨getWord32_slice b.bytes pos (by decide), rfl⟩

/-- The first two words of a body are found in its first eight bytes. -/
theorem front_words (bytes : Bytes) (pos : Nat) {size : Nat} (h : 8 ≤ size) :
    getWord32 (slice bytes pos 8) = getWord32 (slice bytes pos size) ∧
      getWord32 ((slice bytes pos 8).drop 4) = getWord32 ((slice bytes pos size).drop 4) := by
  rw [drop_slice, drop_slice, getWord32_slice bytes pos (show 4 ≤ 8 by decide),
    getWord32_slice bytes pos (show 4 ≤ size by omega),
    getWord32_slice bytes (pos + 4) (show 4 ≤ 8 - 4 by decide),
    getWord32_slice bytes (pos + 4) (show 4 ≤ size - 4 by omega)]
  exact ⟨rfl, rfl⟩

theorem toNat_ite_le (x y : UInt64) : (if x ≤ y then x else y).toNat = min x.toNat y.toNat := by
  rw [Nat.min_def]
  simp only [UInt64.le_iff_toNat_le]
  split <;> rfl

namespace Probe

variable {α β : Type} {first stop : Nat}

theorem endsAs_align {size : UInt64} {f : UInt64 → Probe α} {o : Except WireError α}
    (hsize : size.toNat < 2 ^ 63)
    (h : ∀ z : UInt64, z.toNat = size.toNat + padding size.toNat → EndsAs first stop (f z) o) :
    EndsAs first stop (align size >>= f) o := by
  have height : atomAlignment.toNat = 2 ^ 3 := rfl
  have hone : (1 : UInt64).toNat = 1 := rfl
  rw [align, bind_assoc]
  refine endsAs_add (by omega) fun raised hraised => ?_
  rw [bind_assoc]
  refine endsAs_sub (by omega) fun top htop => ?_
  rw [pure_bind]
  apply h
  rw [toNat_clear height]
  unfold padding
  omega

/-- After this check a header fits, and where it does not the probe is over. -/
theorem endsAs_room {pos last : UInt64} {e : WireError} {f : UInt64 → Probe α}
    {o : Except WireError α}
    (hpass : pos.toNat + 8 ≤ last.toNat →
      ∀ left : UInt64, left.toNat = last.toNat - pos.toNat → EndsAs first stop (f left) o)
    (hfail : last.toNat < pos.toNat + 8 → o = .error e) :
    EndsAs first stop (room pos last e >>= f) o := by
  have height : (8 : UInt64).toNat = 8 := rfl
  rw [room, bind_assoc]
  by_cases hpos : pos.toNat ≤ last.toNat
  · refine endsAs_pass (decide_eq_true (UInt64.le_iff_toNat_le.mpr hpos)) ?_
    rw [bind_assoc]
    refine endsAs_sub hpos fun left hleft => ?_
    rw [bind_assoc]
    by_cases hheader : pos.toNat + 8 ≤ last.toNat
    · refine endsAs_pass (decide_eq_true (UInt64.le_iff_toNat_le.mpr (by omega))) ?_
      rw [pure_bind]
      exact hpass hheader left hleft
    · rw [hfail (by omega)]
      refine endsAs_fail (decide_eq_false ?_)
      rw [UInt64.le_iff_toNat_le]
      omega
  · rw [hfail (by omega)]
    refine endsAs_fail (decide_eq_false ?_)
    rwa [UInt64.le_iff_toNat_le]

theorem endsAs_childAt {b : Block} {pos last : UInt64} {overrun : WireError}
    (hfirst : first ≤ pos.toNat) (hstop : last.toNat ≤ stop) (hsmall : last.toNat < 2 ^ 63) :
    EndsAs first stop (childAt b pos last overrun)
      (b.childAt pos.toNat last.toNat overrun) := by
  have height : (8 : UInt64).toNat = 8 := rfl
  have hend : b.bodyEnd pos.toNat = pos.toNat + 8 + (b.sizeAt pos.toNat).toNat := rfl
  have hbound : (b.sizeAt pos.toNat).toNat < 2 ^ 32 := (b.sizeAt pos.toNat).toNat_lt
  have hwide : (b.sizeAt pos.toNat).toUInt64.toNat = (b.sizeAt pos.toNat).toNat :=
    UInt32.toNat_toUInt64 _
  refine endsAs_room (fun hheader left hleft => ?_) fun hshort =>
    Block.childAt_of_lt (by omega)
  refine endsAs_load hfirst (by omega) ?_
  rw [(b.header_words pos.toNat).1, (b.header_words pos.toNat).2]
  refine endsAs_add (by omega) fun start hstart => ?_
  refine endsAs_sub (by omega) fun rest hrest => ?_
  by_cases hbody : b.bodyEnd pos.toNat ≤ last.toNat
  · refine endsAs_pass (decide_eq_true (UInt64.le_iff_toNat_le.mpr (by omega))) ?_
    refine endsAs_align (by omega) fun aligned haligned => ?_
    have hpad := padding_lt (b.sizeAt pos.toNat).toNat
    rw [hwide] at haligned
    refine endsAs_add (by omega) fun next hnext => ?_
    refine endsAs_load (by omega) (by omega) ?_
    have hnext' : next.toNat = b.paddedEnd pos.toNat := by
      rw [Block.paddedEnd, hnext, hstart, haligned, hend, height, Nat.add_assoc _ _ (padding _)]
    rw [Block.childAt_eq_ok_iff.mpr ⟨hbody, rfl⟩, toNat_ite_le, hnext', hstart]
    exact .pure _
  · rw [Block.childAt_of_lt (Nat.lt_of_not_le hbody)]
    refine endsAs_fail (decide_eq_false ?_)
    rw [UInt64.le_iff_toNat_le]
    omega

end Probe

/-- The region lies between the bounds, and its positions are words with room to spare. -/
structure Region.Inside {α : Type} (r : Region α) (first stop : Nat) : Prop where
  first_le : first ≤ r.first
  first_lt : r.first < 2 ^ 64
  stop_le : r.stop ≤ stop
  stop_lt : r.stop < 2 ^ 63
  lead_le : r.layout.lead ≤ 8

namespace Probe

variable {α β : Type} {first stop : Nat}

theorem toNat_ofNat {n : Nat} (h : n < 2 ^ 64) : (UInt64.ofNat n).toNat = n :=
  UInt64.toNat_ofNat_of_lt' h

section Records

variable {r : Region α} {pos : UInt64}

theorem endsAs_itemAt (hr : r.Inside first stop) (hfirst : first ≤ pos.toNat)
    (hpos : pos.toNat < r.stop) :
    EndsAs first stop (itemAt r pos)
      ((r.itemAt pos.toNat).map fun found => (found.1, UInt64.ofNat found.2)) := by
  have hstop : (UInt64.ofNat r.stop).toNat = r.stop := toNat_ofNat (by have := hr.stop_lt; omega)
  have hlead : (UInt64.ofNat r.layout.lead).toNat = r.layout.lead :=
    toNat_ofNat (by have := hr.lead_le; omega)
  rw [itemAt, Region.itemAt, map_bind_except]
  refine endsAs_sub (by omega) fun left hleft => ?_
  refine endsAs_ensure ?_ fun hfits => ?_
  · rw [Bool.eq_iff_iff, decide_eq_true_eq, decide_eq_true_eq, UInt64.le_iff_toNat_le]
    omega
  have hfits := of_decide_eq_true hfits
  refine endsAs_load hfirst (by have := hr.stop_le; omega) ?_
  refine endsAs_add (by have := hr.stop_lt; omega) fun start hstart => ?_
  have hchild : EndsAs first stop
      (childAt r.block start (UInt64.ofNat r.stop) r.layout.overrun) _ :=
    endsAs_childAt (by omega) (by have := hr.stop_le; omega) (by have := hr.stop_lt; omega)
  rw [hstart, hlead, hstop] at hchild
  rw [map_bind_except]
  exact hchild.map _

/-- What a visitor has made of a list when it is over, or when he has left. -/
def visited {γ : Type} (visit : β → γ → ForInStep β) : β → List γ → β
  | acc, [] => acc
  | acc, item :: rest =>
    match visit acc item with
    | .done acc => acc
    | .yield acc => visited visit acc rest

theorem visited_singleton {γ : Type} (visit : β → γ → ForInStep β) (acc : β) (item : γ) :
    visited visit acc [item] = (visit acc item).value := by
  rw [visited]
  cases visit acc item <;> rfl

theorem endsAs_walkFrom (hr : r.Inside first stop)
    (visit : β → Except WireError α → ForInStep β) {budget : Nat} (acc : β)
    (hfirst : first ≤ pos.toNat) (hbudget : r.stop - pos.toNat ≤ budget) :
    EndsAs first stop (walkFrom r visit budget pos acc)
      (.ok (visited visit acc (r.itemsFrom pos.toNat))) := by
  have hstop : (UInt64.ofNat r.stop).toNat = r.stop := toNat_ofNat (by have := hr.stop_lt; omega)
  -- Each record brings the position closer to the end, by a byte at least.
  induction budget generalizing pos acc with
  | zero =>
    rw [Region.itemsFrom_of_le (by omega)]
    exact .pure acc
  | succ budget ih =>
    rw [walkFrom]
    by_cases hpos : pos.toNat < r.stop
    · rw [if_pos (UInt64.lt_iff_toNat_lt.mpr (hstop.symm ▸ hpos))]
      have hitem := (endsAs_itemAt hr hfirst hpos).attempt
      cases hfound : r.itemAt pos.toNat with
      | error e =>
        rw [hfound, map_error] at hitem
        rw [Region.itemsFrom_of_error hpos hfound, visited_singleton]
        refine hitem.bind (g := fun _ => .ok (visit acc (.error e)).value) ?_
        rintro _ ⟨⟩
        exact .pure _
      | ok found =>
        obtain ⟨item, next⟩ := found
        obtain ⟨value, hchild, _, hnext⟩ := Region.itemAt_eq_ok_iff.mp hfound
        have hlt := Region.lt_next_of_itemAt hfound
        have hle : next ≤ r.stop := by
          obtain ⟨_, hvalue⟩ := Block.childAt_eq_ok_iff.mp hchild
          rw [hnext, hvalue]
          exact Nat.min_le_right _ _
        have hword : (UInt64.ofNat next).toNat = next :=
          toNat_ofNat (by have := hr.stop_lt; omega)
        rw [hfound, map_ok] at hitem
        rw [Region.itemsFrom_of_ok hpos hfound, visited]
        refine hitem.bind (g := fun _ => .ok _) ?_
        rintro _ ⟨⟩
        cases hvisit : visit acc (.ok item) with
        | done last =>
          simp only [hvisit]
          exact .pure last
        | yield more =>
          simp only [hvisit]
          have hrest := ih more (by omega : first ≤ (UInt64.ofNat next).toNat) (by omega)
          rwa [hword] at hrest
    · rw [if_neg, Region.itemsFrom_of_le (by omega)]
      · exact .pure acc
      · rw [UInt64.lt_iff_toNat_lt, hstop]
        exact hpos

theorem endsAs_walk (hr : r.Inside first stop) (visit : β → Except WireError α → ForInStep β)
    (init : β) :
    EndsAs first stop (walk r visit init) (.ok (visited visit init r.items)) := by
  have hfirst : (UInt64.ofNat r.first).toNat = r.first := toNat_ofNat hr.first_lt
  have hwalk : EndsAs first stop (walk r visit init) _ :=
    endsAs_walkFrom hr visit init (by rw [hfirst]; exact hr.first_le)
      (Nat.le_of_eq (by rw [hfirst]))
  rwa [hfirst] at hwalk

/-- An error is the last item, so a visitor who leaves there has seen all values. -/
theorem visited_upToError (r : Region α) (step : β → α → ForInStep β) (acc : β) :
    visited (upToError step) acc r.items = visited step acc r.values := by
  rw [Region.values, Region.items]
  generalize r.first = pos
  induction pos using r.itemsFrom_induction generalizing acc with
  | behind pos hbehind => rw [Region.itemsFrom_of_le hbehind]; rfl
  | error pos e hlt hitem => rw [Region.itemsFrom_of_error hlt hitem]; rfl
  | record pos value hlt hchild ih =>
    have hitem := Region.itemAt_eq_ok_iff.mpr ⟨value, hchild, rfl, rfl⟩
    rw [Region.itemsFrom_of_ok hlt hitem]
    simp only [List.filterMap_cons, Except.toOption, visited, upToError]
    split
    · rfl
    · exact ih _

theorem endsAs_items (hr : r.Inside first stop) : EndsAs first stop (items r) (.ok r.items) := by
  have hcollect (acc l : List (Except WireError α)) :
      visited (fun acc item => .yield (acc ++ [item])) acc l = acc ++ l := by
    induction l generalizing acc with
    | nil => simp [visited]
    | cons item rest ih => simp [visited, ih]
  have hwalk := endsAs_walk hr (fun acc item => .yield (acc ++ [item])) []
  rwa [hcollect] at hwalk

theorem endsAs_count (hr : r.Inside first stop) : EndsAs first stop (count r) (.ok r.count) := by
  have hcount (n : Nat) (l : List α) :
      visited (fun n _ => .yield (n + 1)) n l = n + l.length := by
    induction l generalizing n with
    | nil => rfl
    | cons a rest ih =>
      simp only [visited, ih, List.length_cons]
      omega
  have hwalk := endsAs_walk hr (upToError fun n _ => .yield (n + 1)) 0
  rwa [visited_upToError, hcount, Nat.zero_add] at hwalk

theorem endsAs_find {o : ObjectView} (ho : o.properties.Inside first stop) (key : TypeId) :
    EndsAs first stop (find o key) (.ok (o.find key)) := by
  have hlast (found : Option AtomView) (l : List Property) :
      visited (fun found p => .yield (if p.key = key then some p.value else found)) found l =
        (((l.filter fun p => p.key = key).getLast?).map Property.value).or found := by
    induction l generalizing found with
    | nil => rfl
    | cons p rest ih =>
      simp only [visited, ih]
      by_cases hkey : p.key = key
      · simp only [hkey, if_true, List.filter_cons, decide_true, List.getLast?_cons]
        cases (rest.filter fun p => p.key = key).getLast? <;> rfl
      · simp only [hkey, if_false, List.filter_cons, decide_false, Bool.false_eq_true]
  have hwalk := endsAs_walk ho
    (upToError fun found p => .yield (if p.key = key then some p.value else found)) none
  rwa [visited_upToError, hlast, Option.or_none] at hwalk

theorem visited_descending (a : Stamp) (index : Nat) (l : List Event) :
    (visited Descending.step ⟨some a, index + 1, none⟩ l).found =
      (AtomWire.firstDecrease (a :: l.map Event.stamp)).map (· + index) := by
  induction l generalizing a index with
  | nil => rfl
  | cons event rest ih =>
    simp only [visited, Descending.step, List.map_cons, AtomWire.firstDecrease]
    by_cases hbefore : event.stamp.before a = true
    · simp [hbefore, Nat.add_comm]
    · simp only [hbefore, Bool.false_eq_true, if_false, ih, Option.map_map]
      congr 1
      funext place
      simp only [Function.comp_apply]
      omega

theorem endsAs_firstDecrease {q : SequenceView} (hq : q.events.Inside first stop) :
    EndsAs first stop (firstDecrease q) (.ok q.firstDecrease) := by
  have hwalk := (endsAs_walk hq (upToError Descending.step) ⟨none, 0, none⟩).map
    Descending.found
  have hfound : (visited Descending.step ⟨none, 0, none⟩ q.events.values).found =
      q.firstDecrease := by
    rw [SequenceView.firstDecrease]
    cases q.events.values with
    | nil => rfl
    | cons event rest =>
      exact (visited_descending event.stamp 0 rest).trans (by simp)
  rw [visited_upToError, ok_bind, hfound] at hwalk
  exact hwalk

end Records

end Probe

/-- The elements lie in the block between the bounds. -/
structure VectorView.Inside (v : VectorView) (b : Block) (first stop : Nat) : Prop where
  first_le : first ≤ v.elements.start
  stop_le : v.elements.start + v.elements.bytes.length ≤ stop
  stop_lt : v.elements.start + v.elements.bytes.length < 2 ^ 63
  bytes_eq : v.elements.bytes = slice b.bytes v.elements.start v.elements.bytes.length

namespace VectorView

variable {v : VectorView} {b : Block} {first stop : Nat} {index : UInt64}

theorem element_le {k : Nat} (h : k < v.size) :
    k * v.width.toNat + v.width.toNat ≤ v.elements.bytes.length :=
  calc k * v.width.toNat + v.width.toNat
    _ = (k + 1) * v.width.toNat := (Nat.succ_mul _ _).symm
    _ ≤ v.size * v.width.toNat := Nat.mul_le_mul_right _ h
    _ ≤ v.elements.bytes.length := Nat.div_mul_le_self _ _

theorem width_ne_zero {k : Nat} (h : k < v.size) : v.width ≠ 0 := by
  intro hzero
  rw [size, hzero] at h
  exact absurd h (by simp)

/-- Among the elements, a cursor shows the element at its index. -/
theorem look_eq_get (hlen : v.elements.bytes.length < 2 ^ 63) (h : index.toNat < v.size) :
    v.look index = v.get index.toNat := by
  have hle := element_le h
  have hstart : (index * v.width.toUInt64).toNat = index.toNat * v.width.toNat := by
    rw [UInt64.toNat_mul, UInt32.toNat_toUInt64, Nat.mod_eq_of_lt (by omega)]
  have hend : (index * v.width.toUInt64 + v.width.toUInt64).toNat =
      index.toNat * v.width.toNat + v.width.toNat := by
    rw [UInt64.toNat_add, hstart, UInt32.toNat_toUInt64, Nat.mod_eq_of_lt (by omega)]
  have hinside : ¬ (v.width = 0 ∨ v.elements.bytes.length <
      (index * v.width.toUInt64 + v.width.toUInt64).toNat) := by
    rw [hend, not_or]
    exact ⟨width_ne_zero h, Nat.not_lt.mpr hle⟩
  rw [look, if_neg hinside, get, if_pos h, hstart]

end VectorView

namespace Probe

variable {α β : Type} {first stop : Nat}

section Elements

variable {v : VectorView} {b : Block} {index : UInt64}

/-- The bytes of an element, come by at its place. -/
theorem endsAs_loadElement (hv : v.Inside b first stop) (h : index.toNat < v.size)
    {distance : UInt64} (hdistance : distance.toNat = index.toNat * v.width.toNat) :
    EndsAs first stop (do
      let start ← add (UInt64.ofNat v.elements.start) distance
      load b start v.width.toNat) (.ok (v.get index.toNat)) := by
  have hle := VectorView.element_le h
  have hlt := hv.stop_lt
  have hstop := hv.stop_le
  have hfirst := hv.first_le
  have hword : (UInt64.ofNat v.elements.start).toNat = v.elements.start := toNat_ofNat (by omega)
  refine endsAs_add (by omega) fun start hstart => ?_
  rw [← bind_pure (load b start v.width.toNat)]
  refine endsAs_load (by omega) (by omega) ?_
  rw [VectorView.get, if_pos h, hv.bytes_eq, slice_slice _ _ hle, hstart, hword, hdistance]
  exact .pure _

theorem endsAs_element (hv : v.Inside b first stop) (index : UInt64) :
    EndsAs first stop (element b v index) (.ok (v.get index.toNat)) := by
  have hlt := hv.stop_lt
  have hword : (UInt64.ofNat v.elements.bytes.length).toNat = v.elements.bytes.length :=
    toNat_ofNat (by omega)
  have hguard : index < UInt64.ofNat v.elements.bytes.length / v.width.toUInt64 ↔
      index.toNat < v.size := by
    rw [UInt64.lt_iff_toNat_lt, UInt64.toNat_div, hword, UInt32.toNat_toUInt64, VectorView.size]
  rw [element]
  by_cases h : index.toNat < v.size
  · have hle := VectorView.element_le h
    rw [if_pos (hguard.mpr h)]
    refine endsAs_mul ?_ fun distance hdistance => ?_
    · rw [UInt32.toNat_toUInt64]
      omega
    · rw [UInt32.toNat_toUInt64] at hdistance
      exact endsAs_loadElement hv h hdistance
  · rw [if_neg (mt hguard.mp h), VectorView.get, if_neg h]
    exact .pure _

theorem endsAs_look (hv : v.Inside b first stop) (h : index.toNat < v.size) :
    EndsAs first stop (look b v index) (.ok (v.look index)) := by
  have hlt := hv.stop_lt
  have hle := VectorView.element_le h
  have hwide : v.width.toUInt64.toNat = v.width.toNat := UInt32.toNat_toUInt64 _
  have hword : (UInt64.ofNat v.elements.bytes.length).toNat = v.elements.bytes.length :=
    toNat_ofNat (by omega)
  rw [VectorView.look_eq_get (by omega) h, look]
  refine endsAs_mul (by rw [hwide]; omega) fun distance hdistance => ?_
  rw [hwide] at hdistance
  rw [if_neg]
  · refine endsAs_add (by omega) fun last hlast => ?_
    rw [if_neg]
    · exact endsAs_loadElement hv h hdistance
    · rw [UInt64.lt_iff_toNat_lt]
      omega
  · intro hzero
    apply VectorView.width_ne_zero h
    rw [← UInt32.toNat_inj, ← hwide, hzero]
    rfl

theorem endsAs_looksFrom (hv : v.Inside b first stop) {moves : Nat}
    (h : index.toNat + moves ≤ v.size) :
    EndsAs first stop (looksFrom b v moves index)
      (.ok ((List.range' index.toNat moves).map fun k => v.look (UInt64.ofNat k))) := by
  have hlen : v.size ≤ v.elements.bytes.length := Nat.div_le_self _ _
  have hlt := hv.stop_lt
  have hone : (1 : UInt64).toNat = 1 := rfl
  induction moves generalizing index with
  | zero => exact .pure []
  | succ moves ih =>
    have hlook := endsAs_look hv (show index.toNat < v.size by omega)
    rw [looksFrom, List.range'_succ, List.map_cons, UInt64.ofNat_toNat]
    refine hlook.bind (g := fun _ => .ok _) ?_
    rintro _ ⟨⟩
    refine endsAs_add (by omega) fun next hnext => ?_
    have hrest := ih (show next.toNat + moves ≤ v.size by omega)
    rw [hnext, hone] at hrest
    exact hrest.map fun rest => v.look index :: rest

theorem endsAs_elements (hv : v.Inside b first stop) :
    EndsAs first stop (elements b v) (.ok v.items) := by
  have hlooks : EndsAs first stop (looksFrom b v v.size 0) _ :=
    endsAs_looksFrom hv (by rw [UInt64.toNat_zero, Nat.zero_add])
  rwa [UInt64.toNat_zero, ← List.range_eq_range'] at hlooks

end Elements

end Probe

end AtomWire
