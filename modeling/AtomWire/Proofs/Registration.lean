import Mathlib.Data.List.Perm.Subperm
import AtomWire.Proofs.Resolution
import AtomWire.Registry

/-!
# Registries over whole runs

The entries of a registry and its list of URIs say the same, and they say what a table of
the URIs says. Along a run of calls the URIs are those that the calls mention, in the order
of their first appearance, and the entries are the ids that the calls have handed out.
-/

namespace AtomWire

set_option autoImplicit false

theorem Vocabulary.ext {v w : Vocabulary} (h : ∀ term, v.id term = w.id term) : v = w := by
  cases v
  cases w
  exact congrArg Vocabulary.mk (funext h)

theorem UriTable.places_of_getElem? {t : UriTable} {uri : Bytes} {index : Nat}
    (hnodup : t.uris.Nodup) (h : t.uris[index]? = some uri) : t.Places uri index := by
  cases hfind : t.uris.findIdx? (· = uri) with
  | none =>
    have hne := List.findIdx?_eq_none_iff.mp hfind uri (List.mem_of_getElem? h)
    simp at hne
  | some first =>
    have hplaces : t.Places uri first := hfind
    have hsame : t.uris[first]? = t.uris[index]? := hplaces.getElem?.trans h.symm
    rwa [← (List.getElem?_inj hplaces.lt_size hnodup).mp hsame]

namespace Registry

variable {r : Registry} {uri other : Bytes} {id : TypeId}

/-- A hash that collides hides no entry. -/
theorem find?_cons (entries : List Entry) (uris : List Bytes) :
    find? ⟨.of uri id :: entries, uris⟩ other =
      if uri = other then some id else find? ⟨entries, uris⟩ other := by
  by_cases heq : uri = other
  · subst heq
    simp [find?, Entry.of]
  · simp [find?, Entry.of, heq]

theorem map_nil (r : Registry) : r.map [] = (0, r) := rfl

theorem map_of_find? (huri : uri ≠ []) (h : r.find? uri = some id) : r.map uri = (id, r) := by
  rw [map, if_neg huri, h]

theorem map_of_new (huri : uri ≠ []) (h : r.find? uri = none) :
    r.map uri = (UInt32.ofNat (r.size + 1),
      ⟨.of uri (UInt32.ofNat (r.size + 1)) :: r.entries, r.uris ++ [uri]⟩) := by
  simp only [map, if_neg huri, h, List.length_append, List.length_singleton, size]

theorem find?_map (huri : uri ≠ []) : (r.map uri).2.find? uri = some (r.map uri).1 := by
  cases h : r.find? uri with
  | some id => rw [map_of_find? huri h, h]
  | none => rw [map_of_new huri h, find?_cons, if_pos rfl]

/-- An id once given stays. -/
theorem find?_map_of_find? (uri : Bytes) (h : r.find? other = some id) :
    (r.map uri).2.find? other = some id := by
  by_cases huri : uri = []
  · rwa [huri, map_nil]
  · cases hfind : r.find? uri with
    | some _ => rwa [map_of_find? huri hfind]
    | none =>
      have hne : uri ≠ other := by
        rintro rfl
        rw [hfind] at h
        cases h
      rwa [map_of_new huri hfind, find?_cons, if_neg hne]

theorem size_map_le (r : Registry) (uri : Bytes) : (r.map uri).2.size ≤ r.size + 1 := by
  by_cases huri : uri = []
  · rw [huri, map_nil]
    exact Nat.le_succ _
  · cases h : r.find? uri with
    | some id => rw [map_of_find? huri h]; exact Nat.le_succ _
    | none => rw [map_of_new huri h]; simp [size]

theorem unmap_eq_none_iff : r.unmap id = none ↔ id = 0 ∨ r.size < id.toNat := by
  unfold unmap size
  split
  · rename_i hout
    exact ⟨fun _ => hout, fun _ => rfl⟩
  · rename_i hin
    have hpos : id.toNat ≠ 0 := fun hzero => hin (Or.inl (UInt32.toNat_inj.mp hzero))
    rw [List.getElem?_eq_none_iff]
    exact ⟨by omega, fun hout => absurd hout hin⟩

theorem unmap_of_getElem? {index : Nat} (h : r.uris[index]? = some uri)
    (hid : id.toNat = index + 1) : r.unmap id = some uri := by
  obtain ⟨hlt, _⟩ := List.getElem?_eq_some_iff.mp h
  have hin : ¬ (id = 0 ∨ r.uris.length < id.toNat) := by
    rintro (rfl | hout)
    · cases hid
    · omega
  rw [unmap, if_neg hin, hid, Nat.add_sub_cancel, h]

theorem getElem?_of_unmap (h : r.unmap id = some uri) :
    id ≠ 0 ∧ r.uris[id.toNat - 1]? = some uri := by
  unfold unmap at h
  split at h
  · cases h
  · rename_i hin
    exact ⟨fun hzero => hin (Or.inl hzero), h⟩

/-- The URIs alone, as a table. -/
def table (r : Registry) : UriTable := ⟨r.uris⟩

theorem size_table (r : Registry) : r.table.size = r.size := rfl

/-- The entries say where the URIs stand. -/
def Consistent (r : Registry) : Prop :=
  ∀ uri, r.find? uri = (r.uris.findIdx? (· = uri)).map fun index => UInt32.ofNat (index + 1)

theorem consistent_empty : empty.Consistent := fun _ => rfl

namespace Consistent

theorem find?_eq_some_iff (h : r.Consistent) :
    r.find? uri = some id ↔
      ∃ index, r.table.Places uri index ∧ UInt32.ofNat (index + 1) = id := by
  rw [h uri, Option.map_eq_some_iff]
  rfl

theorem find?_eq_none_iff (h : r.Consistent) : r.find? uri = none ↔ uri ∉ r.uris := by
  rw [h uri, Option.map_eq_none_iff, List.findIdx?_eq_none_iff]
  simp only [decide_eq_false_iff_not]
  exact ⟨fun hall hmem => hall uri hmem rfl, fun hnot x hx heq => hnot (heq ▸ hx)⟩

theorem map (h : r.Consistent) (uri : Bytes) : (r.map uri).2.Consistent := by
  by_cases huri : uri = []
  · rwa [huri, map_nil]
  · cases hfind : r.find? uri with
    | some id => rwa [map_of_find? huri hfind]
    | none =>
      intro other
      have hnew : r.uris.findIdx? (· = uri) = none := by
        rwa [h uri, Option.map_eq_none_iff] at hfind
      rw [map_of_new huri hfind, find?_cons, List.findIdx?_append]
      by_cases heq : uri = other
      · subst heq
        simp [hnew, size]
      · simp only [if_neg heq, List.findIdx?_singleton, decide_eq_true_eq, Option.map_none,
          Option.or_none]
        exact h other

/-- A registry whose entries are in order answers as the table of its URIs does. -/
theorem map_table (h : r.Consistent) (uri : Bytes) :
    (r.map uri).1 = (r.table.map uri).1 ∧ (r.map uri).2.table = (r.table.map uri).2 := by
  by_cases huri : uri = []
  · subst huri
    exact ⟨rfl, rfl⟩
  · rw [UriTable.map, if_neg huri]
    cases hindex : r.table.uris.findIdx? (· = uri) with
    | some index =>
      rw [map_of_find? huri (h.find?_eq_some_iff.mpr ⟨index, hindex, rfl⟩)]
      exact ⟨rfl, rfl⟩
    | none =>
      have hnew : r.find? uri = none := by
        rw [h uri]
        exact congrArg _ hindex
      rw [map_of_new huri hnew]
      exact ⟨rfl, rfl⟩

theorem mapTerms_table (terms : List Term) (h : r.Consistent) :
    (mapTerms terms r).1 = (r.table.mapTerms terms).1 ∧
      (mapTerms terms r).2.table = (r.table.mapTerms terms).2 ∧
      (mapTerms terms r).2.Consistent := by
  induction terms generalizing r with
  | nil => exact ⟨rfl, rfl, h⟩
  | cons term rest ih =>
    obtain ⟨hid, htable⟩ := h.map_table term.toUri
    obtain ⟨hrest, htables, hconsistent⟩ := ih (h.map term.toUri)
    refine ⟨?_, ?_, hconsistent⟩
    · rw [mapTerms, UriTable.mapTerms, hrest, htable, hid]
    · rw [mapTerms, UriTable.mapTerms, htables, htable]

theorem resolved (h : r.Consistent) (hsize : r.resolve.2.size < UInt32.size) :
    r.resolve.1.Resolved := by
  obtain ⟨hids, htable, _⟩ := h.mapTerms_table Term.all
  rw [resolve, hids]
  apply UriTable.resolved_of_size_lt
  rw [UriTable.resolve, ← htable, size_table]
  exact hsize

end Consistent

section Terms

variable (terms : List Term)

theorem find?_mapTerms_of_find? (h : r.find? uri = some id) :
    (mapTerms terms r).2.find? uri = some id := by
  induction terms generalizing r with
  | nil => exact h
  | cons term rest ih => exact ih (find?_map_of_find? term.toUri h)

theorem find?_mapTerms {term : Term} (hterm : term ∈ terms) :
    (mapTerms terms r).2.find? term.toUri = some ((mapTerms terms r).1.id term) := by
  induction terms generalizing r with
  | nil => cases hterm
  | cons head rest ih =>
    by_cases heq : term = head
    · subst heq
      simp only [mapTerms, Vocabulary.set, if_true]
      exact find?_mapTerms_of_find? rest (find?_map term.toUri_ne_nil)
    · simp only [mapTerms, Vocabulary.set, if_neg heq]
      exact ih ((List.mem_cons.mp hterm).resolve_left heq)

/-- Terms that are known keep their ids, and nothing is added. -/
theorem mapTerms_of_find? {v : Vocabulary}
    (h : ∀ term ∈ terms, r.find? term.toUri = some (v.id term)) :
    (mapTerms terms r).2 = r ∧ ∀ term ∈ terms, (mapTerms terms r).1.id term = v.id term := by
  induction terms with
  | nil => exact ⟨rfl, by simp⟩
  | cons head rest ih =>
    have hhead := map_of_find? head.toUri_ne_nil (h head List.mem_cons_self)
    obtain ⟨hsame, hids⟩ := ih fun term hterm => h term (List.mem_cons_of_mem head hterm)
    simp only [mapTerms, hhead, Vocabulary.set]
    refine ⟨hsame, ?_⟩
    intro term hterm
    by_cases heq : term = head
    · rw [if_pos heq, heq]
    · rw [if_neg heq]
      exact hids term ((List.mem_cons.mp hterm).resolve_left heq)

end Terms

theorem find?_run_of_find? (calls : List Call) (h : r.find? uri = some id) :
    (r.run calls).2.find? uri = some id := by
  induction calls generalizing r with
  | nil => exact h
  | cons call rest ih =>
    apply ih
    cases call with
    | map uri => exact find?_map_of_find? uri h
    | unmap id => exact h
    | resolve =>
      simp only [step, resolve]
      exact find?_mapTerms_of_find? Term.all h

theorem resolve_of_find? {v : Vocabulary} (h : ∀ term, r.find? term.toUri = some (v.id term)) :
    r.resolve = (v, r) := by
  obtain ⟨hsame, hids⟩ := mapTerms_of_find? Term.all fun term _ => h term
  rw [resolve]
  exact Prod.ext (Vocabulary.ext fun term => hids term (Term.mem_all term)) hsame

theorem find?_resolve (r : Registry) (term : Term) :
    r.resolve.2.find? term.toUri = some (r.resolve.1.id term) :=
  find?_mapTerms Term.all (Term.mem_all term)

/-- The terms keep their ids, whatever is called in between. -/
theorem resolve_run_resolve (r : Registry) (later : List Call) :
    (r.resolve.2.run later).2.resolve = (r.resolve.1, (r.resolve.2.run later).2) :=
  resolve_of_find? fun term => find?_run_of_find? later (find?_resolve r term)

/-- The URIs that a call maps, in order. -/
def Call.mentioned : Call → List Bytes
  | .map uri => [uri]
  | .unmap _ => []
  | .resolve => Term.all.map Term.toUri

/-- The URIs that a call maps because its caller names them. -/
def Call.named : Call → List Bytes
  | .map uri => [uri]
  | _ => []

/-- The ids that a call hands out, each with its URI. -/
def Call.granted : Call → Answer → List (Bytes × TypeId)
  | .map uri, .id id => [(uri, id)]
  | .resolve, .vocabulary v => Term.all.map fun term => (term.toUri, v.id term)
  | _, _ => []

/-- The ids that calls hand out by their answers. -/
def granted (calls : List Call) (answers : List Answer) : List (Bytes × TypeId) :=
  (List.zipWith Call.granted calls answers).flatten

/-- The distinct URIs but the empty one, in the order of their first appearance. -/
def firsts (uris : List Bytes) : List Bytes := (uris.filter (· ≠ [])).eraseDups

theorem mem_firsts {uris : List Bytes} : uri ∈ firsts uris ↔ uri ∈ uris ∧ uri ≠ [] := by
  simp [firsts]

theorem firsts_append_known {uris : List Bytes} (h : uri = [] ∨ uri ∈ firsts uris) :
    firsts (uris ++ [uri]) = firsts uris := by
  rcases h with rfl | h
  · simp [firsts]
  · have hmem := mem_firsts.mp h
    have hfilter : uri ∈ uris.filter (· ≠ []) := by simpa using hmem
    rw [firsts, List.filter_append, List.eraseDups_append]
    simp [firsts, List.removeAll, hmem]

theorem firsts_append_new {uris : List Bytes} (huri : uri ≠ []) (h : uri ∉ firsts uris) :
    firsts (uris ++ [uri]) = firsts uris ++ [uri] := by
  have hnew : uri ∉ uris := fun hmem => h (mem_firsts.mpr ⟨hmem, huri⟩)
  rw [firsts, List.filter_append, List.eraseDups_append]
  simp [firsts, List.removeAll, hnew, huri, List.eraseDups_cons]

/-- What has been mentioned and granted is what the registry holds. -/
structure Keeps (r : Registry) (mentioned : List Bytes) (granted : List (Bytes × TypeId)) :
    Prop where
  consistent : r.Consistent
  uris : r.uris = firsts mentioned
  nodup : r.uris.Nodup
  find?_iff : ∀ {uri id}, uri ≠ [] → (r.find? uri = some id ↔ (uri, id) ∈ granted)
  eq_zero : ∀ {id}, ([], id) ∈ granted → id = 0

namespace Keeps

variable {mentioned : List Bytes} {grants : List (Bytes × TypeId)}

theorem start : empty.Keeps [] [] where
  consistent := consistent_empty
  uris := rfl
  nodup := List.nodup_nil
  find?_iff := by
    intro uri id _
    simp [empty, find?]
  eq_zero := by simp

theorem map (h : r.Keeps mentioned grants) (uri : Bytes) :
    (r.map uri).2.Keeps (mentioned ++ [uri]) (grants ++ [(uri, (r.map uri).1)]) := by
  have hconsistent := h.consistent.map uri
  by_cases huri : uri = []
  · subst huri
    refine ⟨hconsistent, ?_, h.nodup, ?_, ?_⟩
    · rw [firsts_append_known (Or.inl rfl)]
      exact h.uris
    · intro other id hother
      rw [map_nil, h.find?_iff hother]
      simp [hother]
    · intro id hid
      rcases List.mem_append.mp hid with hid | hid
      · exact h.eq_zero hid
      · simpa [map_nil] using hid
  · have hzero : ∀ {id}, ([], id) ∈ grants ++ [(uri, (r.map uri).1)] → id = 0 := by
      intro id hid
      rcases List.mem_append.mp hid with hid | hid
      · exact h.eq_zero hid
      · simp [Ne.symm huri] at hid
    cases hfind : r.find? uri with
    | some known =>
      have hmem : uri ∈ firsts mentioned := by
        rw [← h.uris]
        by_contra hnew
        rw [h.consistent.find?_eq_none_iff.mpr hnew] at hfind
        cases hfind
      rw [map_of_find? huri hfind] at hconsistent hzero ⊢
      refine ⟨hconsistent, ?_, h.nodup, ?_, hzero⟩
      · rw [firsts_append_known (Or.inr hmem), h.uris]
      · intro other id hother
        rw [h.find?_iff hother, List.mem_append, List.mem_singleton]
        refine ⟨Or.inl, ?_⟩
        rintro (hid | hid)
        · exact hid
        · cases hid
          exact (h.find?_iff huri).mp hfind
    | none =>
      have hnew := h.consistent.find?_eq_none_iff.mp hfind
      rw [map_of_new huri hfind] at hconsistent hzero ⊢
      refine ⟨hconsistent, ?_, ?_, ?_, hzero⟩
      · rw [firsts_append_new huri (h.uris ▸ hnew), h.uris]
      · simpa [List.nodup_append] using ⟨h.nodup, fun x hx heq => hnew (heq ▸ hx)⟩
      · intro other id hother
        rw [find?_cons, List.mem_append, List.mem_singleton, Prod.mk.injEq]
        by_cases heq : uri = other
        · subst heq
          have hnot : (uri, id) ∉ grants := by
            rw [← h.find?_iff huri, hfind]
            simp
          simp [hnot, eq_comm]
        · rw [if_neg heq, ← h.find?_iff hother]
          simp only [Ne.symm heq, false_and, or_false]
          rfl

theorem mapTerms {terms : List Term} (hterms : terms.Nodup) (h : r.Keeps mentioned grants) :
    (mapTerms terms r).2.Keeps (mentioned ++ terms.map Term.toUri)
      (grants ++ terms.map fun term => (term.toUri, (Registry.mapTerms terms r).1.id term)) := by
  induction terms generalizing r mentioned grants with
  | nil => simpa [Registry.mapTerms] using h
  | cons head rest ih =>
    obtain ⟨hhead, hrest⟩ := List.nodup_cons.mp hterms
    have hkeeps := ih hrest (h.map head.toUri)
    have hids : (rest.map fun term =>
          (term.toUri, (Registry.mapTerms (head :: rest) r).1.id term)) =
        rest.map fun term =>
          (term.toUri, (Registry.mapTerms rest (r.map head.toUri).2).1.id term) := by
      apply List.map_congr_left
      intro term hterm
      have hne : term ≠ head := fun heq => hhead (heq ▸ hterm)
      simp only [Registry.mapTerms, Vocabulary.set, if_neg hne]
    rw [List.map_cons, List.map_cons, hids]
    simpa [Registry.mapTerms, Vocabulary.set] using hkeeps

theorem step (h : r.Keeps mentioned grants) (call : Call) :
    (r.step call).2.Keeps (mentioned ++ call.mentioned)
      (grants ++ call.granted (r.step call).1) := by
  cases call with
  | map uri => exact h.map uri
  | unmap id => simpa [Call.mentioned, Call.granted, Registry.step] using h
  | resolve =>
    simp only [Registry.step, Registry.resolve, Call.mentioned, Call.granted]
    exact h.mapTerms (by decide)

theorem run (h : r.Keeps mentioned grants) (calls : List Call) :
    (r.run calls).2.Keeps (mentioned ++ calls.flatMap Call.mentioned)
      (grants ++ granted calls (r.run calls).1) := by
  induction calls generalizing r mentioned grants with
  | nil => simpa [granted, Registry.run] using h
  | cons call rest ih =>
    have hrest := ih (h.step call)
    simpa [granted, Registry.run] using hrest

/-- As long as the ids do not wrap, they are the positions from 1 on. -/
theorem granted_iff (h : r.Keeps mentioned grants) (hsize : r.size < UInt32.size)
    (huri : uri ≠ []) :
    (uri, id) ∈ grants ↔ ∃ index, r.uris[index]? = some uri ∧ id.toNat = index + 1 := by
  rw [← h.find?_iff huri, h.consistent.find?_eq_some_iff]
  constructor
  · rintro ⟨index, hplaces, rfl⟩
    have hlt : index < r.size := hplaces.lt_size
    exact ⟨index, hplaces.getElem?, UInt32.toNat_ofNat_of_lt' (by omega)⟩
  · rintro ⟨index, hindex, hid⟩
    refine ⟨index, UriTable.places_of_getElem? h.nodup hindex, ?_⟩
    rw [← hid, UInt32.ofNat_toNat]

theorem map_of_granted (h : r.Keeps mentioned grants) (hgranted : (uri, id) ∈ grants) :
    r.map uri = (id, r) := by
  by_cases huri : uri = []
  · subst huri
    rw [map_nil, h.eq_zero hgranted]
  · exact map_of_find? huri ((h.find?_iff huri).mpr hgranted)

theorem map_eq_zero_iff (h : r.Keeps mentioned grants) (hsize : r.size + 1 < UInt32.size) :
    (r.map uri).1 = 0 ↔ uri = [] := by
  refine ⟨?_, fun huri => by rw [huri, map_nil]⟩
  intro hzero
  by_contra huri
  have hsizes := r.size_map_le uri
  have hlast : (uri, (r.map uri).1) ∈ grants ++ [(uri, (r.map uri).1)] :=
    List.mem_append_right _ List.mem_cons_self
  obtain ⟨index, _, hid⟩ := ((h.map uri).granted_iff (by omega) huri).mp hlast
  rw [hzero] at hid
  cases hid

theorem id_eq_iff (h : r.Keeps mentioned grants) (hsize : r.size < UInt32.size)
    {otherId : TypeId} (hgranted : (uri, id) ∈ grants) (hother : (other, otherId) ∈ grants)
    (hid : id ≠ 0) : id = otherId ↔ uri = other := by
  have huri : uri ≠ [] := by
    rintro rfl
    exact hid (h.eq_zero hgranted)
  constructor
  · rintro rfl
    have hne : other ≠ [] := by
      rintro rfl
      exact hid (h.eq_zero hother)
    obtain ⟨index, hindex, hnat⟩ := (h.granted_iff hsize huri).mp hgranted
    obtain ⟨index', hindex', hnat'⟩ := (h.granted_iff hsize hne).mp hother
    obtain rfl : index = index' := by omega
    exact Option.some.inj (hindex.symm.trans hindex')
  · rintro rfl
    have hsame := (h.map_of_granted hgranted).symm.trans (h.map_of_granted hother)
    exact congrArg Prod.fst hsame

theorem unmap_eq_some_iff (h : r.Keeps mentioned grants) (hsize : r.size < UInt32.size)
    (huri : uri ≠ []) : r.unmap id = some uri ↔ (uri, id) ∈ grants := by
  rw [h.granted_iff hsize huri]
  constructor
  · intro hunmap
    obtain ⟨hne, hindex⟩ := getElem?_of_unmap hunmap
    have hpos : id.toNat ≠ 0 := fun hzero => hne (UInt32.toNat_inj.mp hzero)
    exact ⟨_, hindex, by omega⟩
  · rintro ⟨index, hindex, hid⟩
    exact unmap_of_getElem? hindex hid

end Keeps

theorem run_append (r : Registry) (calls more : List Call) :
    (r.run (calls ++ more)).2 = ((r.run calls).2.run more).2 := by
  induction calls generalizing r with
  | nil => rfl
  | cons call rest ih => exact ih (r.step call).2

theorem size_run_le (calls : List Call) :
    (empty.run calls).2.size ≤
      (firsts (calls.flatMap Call.named)).length + Term.all.length := by
  have hkeeps := Keeps.start.run calls
  have hsubset : (empty.run calls).2.uris ⊆
      firsts (calls.flatMap Call.named) ++ Term.all.map Term.toUri := by
    intro uri hmem
    rw [hkeeps.uris, mem_firsts, List.nil_append, List.mem_flatMap] at hmem
    obtain ⟨⟨call, hcall, hmentioned⟩, huri⟩ := hmem
    rw [List.mem_append, mem_firsts, List.mem_flatMap]
    cases call with
    | map other => exact Or.inl ⟨⟨_, hcall, hmentioned⟩, huri⟩
    | unmap id => cases hmentioned
    | resolve => exact Or.inr hmentioned
  have hlength := hkeeps.nodup.length_le_of_subset hsubset
  rwa [List.length_append, List.length_map] at hlength

theorem run_singleton (r : Registry) (call : Call) : (r.run [call]).2 = (r.step call).2 := rfl

theorem step_resolve (r : Registry) :
    r.step .resolve = (.vocabulary r.resolve.1, r.resolve.2) := rfl

theorem run_resolve (r : Registry) : (r.run [.resolve]).2 = r.resolve.2 := by
  rw [run_singleton, step_resolve]

theorem size_resolve_run_le (calls : List Call) :
    (empty.run calls).2.resolve.2.size ≤
      (firsts (calls.flatMap Call.named)).length + Term.all.length := by
  have hle := size_run_le (calls ++ [.resolve])
  have hnamed : (calls ++ [Call.resolve]).flatMap Call.named = calls.flatMap Call.named := by
    rw [List.flatMap_append]
    exact List.append_nil _
  rwa [run_append, run_resolve, hnamed] at hle

end Registry

open Registry in
/-- Calls on a registry that is empty at first name fewer than 2^32 - 20 URIs. The URIs that
they map have the ids from 1 on, in the order in which they first appear, and keep them. A
registry knows which ids it has handed out, and for which URIs. Every standard term has an
id of its own, which is the same ever after. -/
theorem registry_calls (calls : List Registry.Call)
    (hcount : (firsts (calls.flatMap Call.named)).length < UInt32.size - 20) :
    let run := Registry.empty.run calls
    let r := run.2
    let uris := firsts (calls.flatMap Call.mentioned)
    let grants := granted calls run.1
    r.size = uris.length ∧
    (∀ uri id, uri ≠ [] →
      ((uri, id) ∈ grants ↔ ∃ index, uris[index]? = some uri ∧ id.toNat = index + 1)) ∧
    r.map [] = (0, r) ∧ (∀ uri, (r.map uri).1 = 0 ↔ uri = []) ∧
    (∀ uri id, (uri, id) ∈ grants → r.map uri = (id, r)) ∧
    (∀ uri id other otherId, (uri, id) ∈ grants → (other, otherId) ∈ grants → id ≠ 0 →
      (id = otherId ↔ uri = other)) ∧
    (∀ uri id, uri ≠ [] → (r.unmap id = some uri ↔ (uri, id) ∈ grants)) ∧
    (∀ id, r.unmap id = none ↔ id = 0 ∨ r.size < id.toNat) ∧
    r.resolve.1.Resolved ∧
    ∀ later, let r' := (r.resolve.2.run later).2
      r'.resolve = (r.resolve.1, r') := by
  intro run r uris grants
  have hkeeps : r.Keeps (calls.flatMap Call.mentioned) grants := Keeps.start.run calls
  have hterms : Term.all.length = 19 := rfl
  have hsize : r.size + 1 < UInt32.size := by
    have hle : r.size ≤ _ := size_run_le calls
    omega
  have hresolved : r.resolve.1.Resolved := by
    apply hkeeps.consistent.resolved
    have hle : r.resolve.2.size ≤ _ := size_resolve_run_le calls
    omega
  refine ⟨congrArg List.length hkeeps.uris, ?_, r.map_nil, ?_, ?_, ?_, ?_, ?_, hresolved, ?_⟩
  · intro uri id huri
    rw [hkeeps.granted_iff (by omega) huri, hkeeps.uris]
  · intro uri
    exact hkeeps.map_eq_zero_iff hsize
  · intro uri id hgranted
    exact hkeeps.map_of_granted hgranted
  · intro uri id other otherId hgranted hother hid
    exact hkeeps.id_eq_iff (by omega) hgranted hother hid
  · intro uri id huri
    exact hkeeps.unmap_eq_some_iff (by omega) huri
  · intro id
    exact unmap_eq_none_iff
  · intro later
    exact resolve_run_resolve r later

/-- A standard term is mapped before the others, and the empty URI after it. -/
theorem registry_calls_premapped :
    let uri : Bytes := [7]
    let calls : List Registry.Call :=
      [.map Term.tuple.toUri, .map [], .map uri, .unmap 9, .resolve, .map uri]
    let r := (Registry.empty.run calls).2
    (Registry.firsts (calls.flatMap Registry.Call.named)).length = 2 ∧
      r.size = 20 ∧ r.unmap 2 = some uri ∧ r.map uri = (2, r) ∧
      r.unmap 21 = none ∧ r.resolve.1.Resolved ∧ r.resolve.1.id .tuple = 1 := by
  intro uri calls r
  have hcount : (Registry.firsts (calls.flatMap Registry.Call.named)).length = 2 := by
    decide +kernel
  have hgrant : (uri, 2) ∈ Registry.granted calls (Registry.empty.run calls).1 := by
    decide +kernel
  obtain ⟨hsize, _, _, _, hmap, _, hunmap, hnone, hresolved, _⟩ :=
    registry_calls calls (by rw [hcount]; decide)
  have hlength : r.size = 20 := hsize.trans (by decide +kernel)
  refine ⟨hcount, hlength, (hunmap uri 2 (by decide)).mpr hgrant, hmap uri 2 hgrant, ?_,
    hresolved, ?_⟩
  · rw [hnone, hlength]
    decide
  · decide +kernel

end AtomWire
