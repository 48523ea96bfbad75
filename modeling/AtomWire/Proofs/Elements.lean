import AtomWire.Proofs.Absence
import AtomWire.Proofs.Probes
import AtomWire.Traversal

/-!
# The elements of a vector

The body of a vector starts with the type and the width of its elements and says nothing of
their number. `Source.vector` accepts it if the rest divides into elements. Elements are come
by through their index or through a cursor, each with a check of its own: the index is
compared with the number of elements, and the cursor, which counts on 64-bit words, computes
where its element ends.
-/

namespace AtomWire

set_option autoImplicit false

namespace Traversal

variable {κ ω : Type} {t : Traversal κ ω} {c : κ} {items others : List ω}

/-- What a cursor shows on its way to the end. -/
inductive Shows (t : Traversal κ ω) : κ → List ω → Prop where
  | stop {c : κ} (h : t.isEnd c = true) : Shows t c []
  | move {c : κ} {items : List ω} (h : t.isEnd c = false) (hrest : Shows t (t.advance c) items) :
      Shows t c (t.look c :: items)

theorem Shows.unique (h : t.Shows c items) (h' : t.Shows c others) : items = others := by
  induction h generalizing others with
  | stop hend =>
    cases h' with
    | stop _ => rfl
    | move hgoing _ => cases hend.symm.trans hgoing
  | move hgoing _ ih =>
    cases h' with
    | stop hend => cases hend.symm.trans hgoing
    | move _ hrest => rw [ih hrest]

end Traversal

/-- Bytes cut into pieces of the same width, put together again. -/
theorem flatten_slices (bytes : Bytes) (width count : Nat) :
    ((List.range count).map fun i => slice bytes (i * width) width).flatten =
      bytes.take (count * width) := by
  induction count with
  | zero => simp
  | succ count ih =>
    rw [List.range_succ, List.map_append, List.flatten_append, ih, Nat.succ_mul, List.take_add]
    simp [slice]

/-- What follows the two words in the body of a vector divides into elements. -/
theorem fits_vector_iff {body : Bytes} :
    Term.vector.fits body = true ↔ ∃ n, 8 + (getWord32 (body.drop 4)).toNat * n = body.length := by
  have hrest : (body.drop 8).length = body.length - 8 := List.length_drop
  generalize hwidth : getWord32 (body.drop 4) = width
  simp only [Term.fits, hwidth, decide_eq_true_eq]
  by_cases hzero : width = 0
  · subst hzero
    simp only [if_pos, List.isEmpty_iff_length_eq_zero, hrest, UInt32.toNat_zero, Nat.zero_mul]
    constructor
    · rintro ⟨hlong, hnone⟩
      exact ⟨0, by omega⟩
    · rintro ⟨_, hlen⟩
      omega
  · rw [if_neg hzero, decide_eq_true_eq, hrest, ← Nat.dvd_iff_mod_eq_zero]
    constructor
    · rintro ⟨hlong, n, hn⟩
      exact ⟨n, by omega⟩
    · rintro ⟨n, hn⟩
      exact ⟨by omega, n, by omega⟩

namespace Source

variable {s : Source} {view : AtomView}

theorem vector_eq (hheld : s.holds view = true) (htype : view.type = s.vocabulary.id .vector) :
    let body := slice s.block.bytes view.bodyOffset view.bodySize.toNat
    s.vector view =
      if Term.vector.fits body then
        .ok ⟨getWord32 body, getWord32 (body.drop 4),
          ⟨s.block.memory, view.bodyOffset + 8, body.drop 8⟩⟩
      else .error .malformedContainer := by
  intro body
  have hbody : s.body view = .ok body := body_of_holds hheld
  by_cases hlong : 8 ≤ body.length
  · have hopen : s.openAs .vector 8 view = .ok body :=
      openAs_eq_ok_iff.mpr ⟨hbody, htype, hlong⟩
    rw [vector, hopen, ok_bind, ensure_bind]
    simp only [Term.fits, hlong, true_and, decide_eq_true_eq, pure_eq_ok]
  · have hopen : s.openAs .vector 8 view = .error .malformedContainer := by
      rw [openAs, hbody, ok_bind, ensure_bind, if_pos (decide_eq_true htype), ensure_bind,
        if_neg (mt of_decide_eq_true hlong)]
    rw [vector, hopen, if_neg]
    · rfl
    · intro hfits
      exact hlong (of_decide_eq_true hfits).1

theorem vector_eq_ok {v : VectorView} (hheld : s.holds view = true)
    (htype : view.type = s.vocabulary.id .vector) (h : s.vector view = .ok v) :
    let body := slice s.block.bytes view.bodyOffset view.bodySize.toNat
    Term.vector.fits body = true ∧ v.childType = getWord32 body ∧
      v.width = getWord32 (body.drop 4) ∧ v.elements.bytes = body.drop 8 := by
  intro body
  rw [vector_eq hheld htype] at h
  split at h
  · rename_i hfits
    cases h
    exact ⟨hfits, rfl, rfl, rfl⟩
  · cases h

end Source

namespace VectorView

variable {v : VectorView} {index : UInt64}

/-- Behind the elements a cursor shows nothing, as long as its words do not wrap. -/
theorem look_of_size_le (h : v.size ≤ index.toNat)
    (hlt : (index.toNat + 1) * v.width.toNat < 2 ^ 64) : v.look index = [] := by
  rw [Nat.succ_mul] at hlt
  have hend : (index * v.width.toUInt64 + v.width.toUInt64).toNat =
      index.toNat * v.width.toNat + v.width.toNat := by
    rw [UInt64.toNat_add, UInt64.toNat_mul, UInt32.toNat_toUInt64,
      Nat.mod_eq_of_lt (a := index.toNat * v.width.toNat) (by omega), Nat.mod_eq_of_lt hlt]
  rw [look, if_pos]
  by_cases hzero : v.width = 0
  · exact Or.inl hzero
  · have hpos : 0 < v.width.toNat := Nat.pos_of_ne_zero fun h => hzero (UInt32.toNat_inj.mp h)
    right
    calc v.elements.bytes.length
      _ < (index.toNat + 1) * v.width.toNat :=
        (Nat.div_lt_iff_lt_mul hpos).mp (Nat.lt_succ_of_le h)
      _ = _ := by rw [hend, Nat.succ_mul]

theorem size_of_length {n : Nat} (h : v.elements.bytes.length = v.width.toNat * n) :
    v.size = if v.width.toNat = 0 then 0 else n := by
  rw [size, h]
  split
  · rename_i hzero
    rw [hzero, Nat.div_zero]
  · rename_i hzero
    exact Nat.mul_div_cancel_left n (Nat.pos_of_ne_zero hzero)

theorem length_get {k : Nat} (h : k < v.size) : (v.get k).length = v.width.toNat := by
  rw [get, if_pos h, length_slice (element_le h)]

theorem iterate_advance (v : VectorView) (moves : Nat) :
    v.traversal.advance^[moves] v.traversal.start = ⟨true, UInt64.ofNat moves⟩ := by
  induction moves with
  | zero => rfl
  | succ moves ih =>
    rw [Function.iterate_succ_apply', ih, UInt64.ofNat_add]
    rfl

/-- From the element at an index on, a cursor shows the elements up to the last one. -/
theorem shows_from (hlen : v.elements.bytes.length < 2 ^ 63) {count k : Nat}
    (hk : k + count = v.size) :
    v.traversal.Shows ⟨true, UInt64.ofNat k⟩ ((List.range' k count).map v.get) := by
  have hsize : v.size < 2 ^ 63 := Nat.lt_of_le_of_lt (Nat.div_le_self _ _) hlen
  have hlast : (UInt64.ofNat v.size).toNat = v.size := Probe.toNat_ofNat (by omega)
  induction count generalizing k with
  | zero =>
    apply Traversal.Shows.stop
    exact decide_eq_true (congrArg (ElementCursor.mk true <| UInt64.ofNat ·) hk)
  | succ count ih =>
    have hword : (UInt64.ofNat k).toNat = k := Probe.toNat_ofNat (by omega)
    have hlook : v.traversal.look ⟨true, UInt64.ofNat k⟩ = v.get k := by
      have hshown : v.look (UInt64.ofNat k) = _ := look_eq_get hlen (by omega)
      rwa [hword] at hshown
    have hgoing : v.traversal.isEnd ⟨true, UInt64.ofNat k⟩ = false := by
      apply decide_eq_false
      intro hend
      have hsame := congrArg (fun cursor => cursor.index.toNat) hend
      simp only [hword, hlast] at hsame
      omega
    have hrest := ih (k := k + 1) (by omega)
    rw [List.range'_succ, List.map_cons, ← hlook]
    apply Traversal.Shows.move hgoing
    rw [UInt64.ofNat_add] at hrest
    exact hrest

theorem shows_iff (hlen : v.elements.bytes.length < 2 ^ 63) {items : List Bytes} :
    v.traversal.Shows v.traversal.start items ↔ items = (List.range v.size).map v.get := by
  have hshows := shows_from hlen (Nat.zero_add v.size)
  rw [← List.range_eq_range'] at hshows
  constructor
  · intro h
    exact h.unique hshows
  · rintro rfl
    exact hshows

/-- The elements make up the bytes, whatever number of bytes they have. -/
theorem flatten_get (h : v.width.toNat ∣ v.elements.bytes.length) :
    ((List.range v.size).map v.get).flatten = v.elements.bytes := by
  have hget : (List.range v.size).map v.get = (List.range v.size).map fun i =>
      slice v.elements.bytes (i * v.width.toNat) v.width.toNat := by
    apply List.map_congr_left
    intro k hk
    rw [get, if_pos (List.mem_range.mp hk)]
  rw [hget, flatten_slices, size, Nat.div_mul_cancel h, List.take_length]

end VectorView

/-- For a view of a vector that lies in the source: it is accepted exactly if its body is the
two words and a number of elements, and then index and cursor give the same elements, which
are all there is behind the two words. -/
theorem vector_exact (s : Source) (view : AtomView) (hheld : s.holds view = true)
    (htype : view.type = s.vocabulary.id .vector) :
    let body := slice s.block.bytes view.bodyOffset view.bodySize.toNat
    let width := (getWord32 (body.drop 4)).toNat
    ((∃ v, s.vector view = .ok v) ↔ ∃ n, 8 + width * n = view.bodySize.toNat) ∧
    ((∀ n, 8 + width * n ≠ view.bodySize.toNat) → s.vector view = .error .malformedContainer) ∧
    ∀ v, s.vector view = .ok v →
      v.childType = getWord32 body ∧ v.width = getWord32 (body.drop 4) ∧
      v.elements.bytes = body.drop 8 ∧ (width = 0 → view.bodySize = 8) ∧
      (∀ n, 8 + width * n = view.bodySize.toNat → v.size = if width = 0 then 0 else n) ∧
      (∀ index : UInt64, v.get index.toNat =
        if index.toNat < v.size then slice body (8 + index.toNat * width) width else []) ∧
      (∀ k < v.size, (v.get k).length = width) ∧
      (∀ items, v.traversal.Shows v.traversal.start items ↔
        items = (List.range v.size).map v.get) ∧
      ((List.range v.size).map v.get).flatten = v.elements.bytes ∧
      ∀ moves,
        let cursor := v.traversal.advance^[moves] v.traversal.start
        v.size ≤ cursor.index.toNat → (cursor.index.toNat + 1) * width < 2 ^ 64 →
          v.traversal.look cursor = [] := by
  intro body width
  have hlen : body.length = view.bodySize.toNat := Source.length_body hheld
  have hfits : Term.vector.fits body = true ↔ ∃ n, 8 + width * n = view.bodySize.toNat := by
    rw [fits_vector_iff, hlen]
  have hvector : s.vector view = if Term.vector.fits body then _ else _ :=
    Source.vector_eq hheld htype
  refine ⟨?_, ?_, ?_⟩
  · rw [← hfits, hvector]
    by_cases hshape : Term.vector.fits body <;> simp [hshape]
  · intro hnone
    rw [hvector, if_neg]
    intro hshape
    obtain ⟨n, hn⟩ := hfits.mp hshape
    exact hnone n hn
  · intro v hv
    obtain ⟨hshape, hchild, hword, (hbytes : v.elements.bytes = body.drop 8)⟩ :=
      Source.vector_eq_ok hheld htype hv
    obtain ⟨n, hn⟩ := hfits.mp hshape
    have hwidth : v.width.toNat = width := congrArg UInt32.toNat hword
    have hcount : v.elements.bytes.length = view.bodySize.toNat - 8 := by
      rw [hbytes, List.length_drop, hlen]
    have hsmall : v.elements.bytes.length < 2 ^ 63 := by
      have := view.bodySize.toNat_lt
      omega
    rw [← hwidth] at hn ⊢
    refine ⟨hchild, hword, hbytes, ?_, ?_, ?_, fun k => VectorView.length_get,
      fun items => VectorView.shows_iff hsmall, ?_, ?_⟩
    · intro hzero
      rw [hzero, Nat.zero_mul] at hn
      exact UInt32.toNat_inj.mp hn.symm
    · intro m hm
      exact VectorView.size_of_length (by omega)
    · intro index
      rw [VectorView.get, hbytes, slice, slice, List.drop_drop]
    · apply VectorView.flatten_get
      exact ⟨n, by omega⟩
    · intro moves cursor hbehind hwrap
      have hcursor : cursor = ⟨true, UInt64.ofNat moves⟩ := v.iterate_advance moves
      rw [hcursor] at hbehind hwrap ⊢
      exact VectorView.look_of_size_le hbehind hwrap

/-- Two elements of three bytes, and the cursor that has passed both. -/
theorem vector_exact_pair :
    let s : Source := ⟨Vocabulary.unresolved.set .vector 4, some 0,
      word32 4 ++ word32 14 ++ (word32 9 ++ word32 3 ++ [1, 2, 3, 4, 5, 6]) ++ [0, 0]⟩
    let view := s.block.viewAt 0 24
    let v : VectorView := ⟨9, 3, some 0, 16, [1, 2, 3, 4, 5, 6]⟩
    s.holds view = true ∧ view.type = s.vocabulary.id .vector ∧ s.vector view = .ok v ∧
      v.traversal.Shows v.traversal.start [[1, 2, 3], [4, 5, 6]] ∧
      v.traversal.look (v.traversal.advance^[2] v.traversal.start) = [] := by
  intro s view v
  have hheld : s.holds view = true := by decide +kernel
  have htype : view.type = s.vocabulary.id .vector := by decide +kernel
  have hopen : s.vector view = .ok v := by decide +kernel
  obtain ⟨_, _, hexact⟩ := vector_exact s view hheld htype
  obtain ⟨_, _, _, _, _, _, _, hshows, _, hbehind⟩ := hexact v hopen
  exact ⟨hheld, htype, hopen, (hshows _).mpr (by decide +kernel),
    hbehind 2 (by decide +kernel) (by decide +kernel)⟩

-- Where the words wrap, a cursor behind the elements shows the first one again.
example :
    let v : VectorView := ⟨9, 2, some 0, 16, [1, 2]⟩
    v.size = 1 ∧ v.look (2 ^ 63) = [1, 2] ∧ v.get (2 ^ 63) = [] := by decide +kernel

end AtomWire
