import AtomWire.Scalar
import AtomWire.UriTable

/-!
# Resolved vocabularies

A table of URIs gives ids to all standard terms, and no two terms the same one, as long as
the ids stay below the wrap of 32-bit words.
-/

namespace AtomWire

set_option autoImplicit false

/-- Every term has an id of its own. -/
structure Vocabulary.Resolved (v : Vocabulary) : Prop where
  ne_zero : ∀ term, v.id term ≠ 0
  injective : ∀ {a b}, v.id a = v.id b → a = b

namespace Term

theorem toUri_ne_nil (term : Term) : term.toUri ≠ [] := by
  have hall : ∀ a ∈ all, a.toUri ≠ [] := by decide +kernel
  exact hall term (mem_all term)

theorem toUri_injective {a b : Term} (h : a.toUri = b.toUri) : a = b := by
  have hall : ∀ a ∈ all, ∀ b ∈ all, a.toUri = b.toUri → a = b := by decide +kernel
  exact hall a (mem_all a) b (mem_all b) h

end Term

namespace UriTable

/-- The URI stands in the table, first at the given position. -/
def Places (t : UriTable) (uri : Bytes) (index : Nat) : Prop :=
  t.uris.findIdx? (· = uri) = some index

variable {t t' : UriTable} {uri : Bytes} {index : Nat}

theorem Places.getElem? (h : t.Places uri index) : t.uris[index]? = some uri := by
  obtain ⟨hlt, huri, _⟩ := List.findIdx?_eq_some_iff_getElem.mp h
  rw [List.getElem?_eq_getElem hlt]
  simpa using huri

theorem Places.lt_size (h : t.Places uri index) : index < t.size :=
  (List.findIdx?_eq_some_iff_getElem.mp h).1

theorem Places.extend (h : t.Places uri index) (hstart : t.uris <+: t'.uris) :
    t'.Places uri index := by
  obtain ⟨more, hmore⟩ := hstart
  unfold Places
  rw [← hmore, List.findIdx?_append, h]
  rfl

theorem map_places (huri : uri ≠ []) :
    ∃ index, (t.map uri).1 = UInt32.ofNat (index + 1) ∧ (t.map uri).2.Places uri index ∧
      t.uris <+: (t.map uri).2.uris := by
  cases hfind : t.uris.findIdx? (· = uri) with
  | some index =>
    simp only [map, huri, if_false, hfind]
    exact ⟨index, rfl, hfind, List.prefix_refl _⟩
  | none =>
    simp only [map, huri, if_false, hfind]
    refine ⟨t.uris.length, rfl, ?_, List.prefix_append _ _⟩
    unfold Places
    rw [List.findIdx?_append, hfind]
    simp

theorem mapTerms_places (terms : List Term) (t : UriTable) :
    t.uris <+: (mapTerms terms t).2.uris ∧ ∀ term ∈ terms, ∃ index,
      (mapTerms terms t).1.id term = UInt32.ofNat (index + 1) ∧
        (mapTerms terms t).2.Places term.toUri index := by
  induction terms generalizing t with
  | nil => exact ⟨List.prefix_refl _, by simp⟩
  | cons head rest ih =>
    obtain ⟨index, hid, hplaces, hstart⟩ := map_places (t := t) head.toUri_ne_nil
    obtain ⟨hrest, hterms⟩ := ih (t.map head.toUri).2
    refine ⟨hstart.trans hrest, ?_⟩
    intro term hterm
    by_cases heq : term = head
    · subst heq
      exact ⟨index, by simpa [mapTerms, Vocabulary.set] using hid, hplaces.extend hrest⟩
    · obtain ⟨later, hlater⟩ := hterms term ((List.mem_cons.mp hterm).resolve_left heq)
      exact ⟨later, by simpa [mapTerms, Vocabulary.set, heq] using hlater⟩

theorem resolved_of_size_lt (hsize : t.resolve.2.size < UInt32.size) : t.resolve.1.Resolved := by
  have hterms := (mapTerms_places Term.all t).2
  have htoNat : ∀ {index}, index < t.resolve.2.size →
      (UInt32.ofNat (index + 1)).toNat = index + 1 := by
    intro index hindex
    exact UInt32.toNat_ofNat_of_lt' (Nat.lt_of_le_of_lt hindex hsize)
  constructor
  · intro term hzero
    obtain ⟨index, hid, hplaces⟩ := hterms term (Term.mem_all term)
    have hnat := htoNat hplaces.lt_size
    rw [← hid] at hnat
    change (t.resolve.1.id term).toNat = index + 1 at hnat
    rw [hzero] at hnat
    simp at hnat
  · intro a b hab
    obtain ⟨i, hi, hplacesi⟩ := hterms a (Term.mem_all a)
    obtain ⟨j, hj, hplacesj⟩ := hterms b (Term.mem_all b)
    have hids : UInt32.ofNat (i + 1) = UInt32.ofNat (j + 1) := hi.symm.trans (hab.trans hj)
    have hnat := congrArg UInt32.toNat hids
    rw [htoNat hplacesi.lt_size, htoNat hplacesj.lt_size] at hnat
    obtain rfl : i = j := by omega
    exact Term.toUri_injective (Option.some.inj (hplacesi.getElem?.symm.trans hplacesj.getElem?))

end UriTable

namespace Vocabulary.Resolved

variable {v : Vocabulary} {type : TypeId} {kind : ScalarKind}

theorem id_eq_iff (hv : v.Resolved) {a b : Term} : v.id a = v.id b ↔ a = b :=
  ⟨hv.injective, congrArg v.id⟩

theorem scalarKind?_eq_some_iff (hv : v.Resolved) :
    v.scalarKind? type = some kind ↔ type = v.scalarType kind := by
  have hterm : ∀ {a b : ScalarKind}, v.scalarType a = v.scalarType b → a = b := by
    intro a b hab
    have hterms := hv.injective hab
    cases a <;> cases b <;> first | rfl | cases hterms
  constructor
  · intro h
    unfold scalarKind? at h
    split at h
    · cases h
    · have hkind := List.find?_some h
      exact of_decide_eq_true hkind
  · rintro rfl
    have hfind : ScalarKind.all.find? (fun k => v.scalarType kind = v.id k.term) ≠ none := by
      intro hnone
      have hkind := List.find?_eq_none.mp hnone kind (by cases kind <;> simp [ScalarKind.all])
      simp [scalarType] at hkind
    obtain ⟨found, hfound⟩ := Option.ne_none_iff_exists'.mp hfind
    have hkind := List.find?_some hfound
    have heq : kind = found := hterm (of_decide_eq_true hkind)
    have hne : v.scalarType kind ≠ 0 := hv.ne_zero kind.term
    rw [scalarKind?, if_neg hne, hfound, heq]

theorem encode_scalarType (hv : v.Resolved) (x : Scalar) :
    v.encode (v.scalarType x.kind) x = .ok x.payload :=
  if_pos (hv.scalarKind?_eq_some_iff.mpr rfl)

end Vocabulary.Resolved

end AtomWire
