import Mathlib.Data.Finset.Card
import AtomWire.Proofs.Answers
import AtomWire.Proofs.Decoding
import AtomWire.Proofs.Registration

/-!
# Dictionaries of objects

An object is decoded by entering its properties one after another, each under the URI of its
key where there is one. `ObjectView.find` goes over the properties as well and keeps the last
one with the key asked for. Both agree, since no URI belongs to two ids and texts are faithful
to their bytes.
-/

namespace AtomWire

set_option autoImplicit false

open AtomWire.Dynamic

variable {Text : Type}

theorem lift_eq_ok_iff {α : Type} {x : Except WireError α} {a : α} :
    lift x = .ok a ↔ x = .ok a := by
  cases x with
  | error e => exact iff_of_false nofun nofun
  | ok b => rw [lift_ok, Except.ok.injEq, Except.ok.injEq]

theorem textOf_eq_ok_iff {make : TextMaker Text} {bytes : Bytes} {text : Text} :
    textOf make bytes = .ok text ↔ make bytes = .ok text := by
  unfold textOf
  cases make bytes with
  | error message => exact iff_of_false nofun nofun
  | ok made => rw [Except.mapError, Except.ok.injEq, Except.ok.injEq]

section Entries

variable [DecidableEq Text] {key other : Key Text} {value : Value Text}
  {entries : List (Key Text × Value Text)}

/-- A key keeps its place; a new one comes last. -/
theorem keys_insertEntry :
    (insertEntry key value entries).map Prod.fst =
      if key ∈ entries.map Prod.fst then entries.map Prod.fst
      else entries.map Prod.fst ++ [key] := by
  induction entries with
  | nil => rfl
  | cons entry rest ih =>
    obtain ⟨k, old⟩ := entry
    by_cases hk : k = key
    · simp [insertEntry, hk]
    · rw [insertEntry, if_neg hk, List.map_cons, ih, List.map_cons]
      by_cases hin : key ∈ rest.map Prod.fst
      · rw [if_pos hin, if_pos (List.mem_cons_of_mem k hin)]
      · rw [if_neg hin, if_neg (List.not_mem_cons_of_ne_of_not_mem (Ne.symm hk) hin)]
        rfl

theorem mem_keys_insertEntry :
    other ∈ (insertEntry key value entries).map Prod.fst ↔
      other ∈ entries.map Prod.fst ∨ other = key := by
  rw [keys_insertEntry]
  split
  · rename_i hin
    refine ⟨Or.inl, ?_⟩
    rintro (h | rfl)
    · exact h
    · exact hin
  · rw [List.mem_append, List.mem_singleton]

theorem nodup_keys_insertEntry (h : (entries.map Prod.fst).Nodup) :
    ((insertEntry key value entries).map Prod.fst).Nodup := by
  rw [keys_insertEntry]
  split
  · exact h
  · rename_i hout
    rw [List.nodup_append_comm]
    exact List.nodup_cons.mpr ⟨hout, h⟩

end Entries

section Keys

variable {make : TextMaker Text} {table : UriTable} {a b : TypeId} {key : Key Text}

theorem UriTable.unmap_inj {uri : Bytes} (h : table.uris.Nodup) (ha : table.unmap a = some uri)
    (hb : table.unmap b = some uri) : a = b := by
  have hplace {id : TypeId} (hid : table.unmap id = some uri) :
      id.toNat ≠ 0 ∧ table.uris[id.toNat - 1]? = some uri := by
    by_cases hzero : id = 0
    · rw [unmap, if_pos hzero] at hid
      cases hid
    · rw [unmap, if_neg hzero] at hid
      exact ⟨fun h => hzero (UInt32.toNat_inj.mp h), hid⟩
  obtain ⟨hapos, ha⟩ := hplace ha
  obtain ⟨hbpos, hb⟩ := hplace hb
  obtain ⟨hlt, _⟩ := List.getElem?_eq_some_iff.mp ha
  have hsame := (List.getElem?_inj hlt h).mp (ha.trans hb.symm)
  exact UInt32.toNat_inj.mp (by omega)

/-- No URI is listed twice, so none stands for two ids. -/
theorem keyOf_inj (hfaithful : Faithful make) (h : table.uris.Nodup)
    (ha : keyOf make table a = .ok key) (hb : keyOf make table b = .ok key) : a = b := by
  unfold keyOf at ha hb
  split at ha <;> split at hb
  · rename_i uri hunmap _ other hunmap'
    obtain ⟨text, htext, hkey⟩ := bind_eq_ok_iff.mp ha
    obtain ⟨text', htext', hkey'⟩ := bind_eq_ok_iff.mp hb
    cases hkey
    cases hkey'
    have hsame := hfaithful uri other text (textOf_eq_ok_iff.mp htext) (textOf_eq_ok_iff.mp htext')
    subst hsame
    exact UriTable.unmap_inj h hunmap hunmap'
  · obtain ⟨text, _, hkey⟩ := bind_eq_ok_iff.mp ha
    cases hkey
    cases hb
  · obtain ⟨text, _, hkey⟩ := bind_eq_ok_iff.mp hb
    cases hkey
    cases ha
  · cases ha
    cases hb
    rfl

theorem exists_keyOf_iff (hutf8 : Utf8Only make) :
    (∃ key, keyOf make table a = .ok key) ↔ ∀ uri, table.unmap a = some uri → IsUtf8 uri := by
  unfold keyOf
  cases hunmap : table.unmap a with
  | none => exact iff_of_true ⟨_, rfl⟩ nofun
  | some uri =>
    simp only [Option.some.injEq, forall_eq', ← hutf8 uri]
    constructor
    · rintro ⟨key, hkey⟩
      obtain ⟨text, htext, _⟩ := bind_eq_ok_iff.mp hkey
      exact ⟨text, textOf_eq_ok_iff.mp htext⟩
    · rintro ⟨text, htext⟩
      exact ⟨_, bind_eq_ok_iff.mpr ⟨text, textOf_eq_ok_iff.mpr htext, rfl⟩⟩

end Keys

section Properties

variable {properties : List Property} {p : Property} {k : TypeId}

/-- The value of the last property with the key. -/
def lastValue (properties : List Property) (k : TypeId) : Option AtomView :=
  ((properties.filter fun p => p.key = k).getLast?).map Property.value

theorem ObjectView.find_eq (o : ObjectView) (k : TypeId) :
    o.find k = lastValue o.properties.values k := rfl

theorem lastValue_append_singleton :
    lastValue (properties ++ [p]) k =
      if p.key = k then some p.value else lastValue properties k := by
  by_cases h : p.key = k <;> simp [lastValue, List.filter_append, h]

theorem lastValue_eq_some_iff {found : AtomView} :
    lastValue properties k = some found ↔
      ∃ before p after, properties = before ++ p :: after ∧ p.key = k ∧ p.value = found ∧
        ∀ q ∈ after, q.key ≠ k := by
  constructor
  · intro h
    induction properties using List.reverseRecOn with
    | nil => cases h
    | append_singleton properties last ih =>
      rw [lastValue_append_singleton] at h
      by_cases hk : last.key = k
      · rw [if_pos hk] at h
        exact ⟨properties, last, [], rfl, hk, Option.some.inj h, nofun⟩
      · rw [if_neg hk] at h
        obtain ⟨before, p, after, rfl, hp, hfound, hafter⟩ := ih h
        refine ⟨before, p, after ++ [last], by simp, hp, hfound, ?_⟩
        rw [List.forall_mem_append]
        exact ⟨hafter, List.forall_mem_singleton.mpr hk⟩
  · rintro ⟨before, p, after, rfl, hp, rfl, hafter⟩
    have hnone : after.filter (fun q => q.key = k) = [] := by
      simpa [List.filter_eq_nil_iff] using hafter
    simp [lastValue, List.filter_append, hp, hnone]

theorem isSome_lastValue_iff :
    (lastValue properties k).isSome = true ↔ k ∈ properties.map Property.key := by
  simp [lastValue]

end Properties

theorem entryOf_eq_ok_iff {make : TextMaker Text} {table : UriTable}
    {inner : AtomView → Except Failure (Value Text)} {item : Except WireError Property}
    {entry : Key Text × Value Text} :
    entryOf make table inner item = .ok entry ↔ ∃ p, item = .ok p ∧
      inner p.value = .ok entry.2 ∧ keyOf make table p.key = .ok entry.1 := by
  constructor
  · intro h
    obtain ⟨p, hitem, h⟩ := bind_eq_ok_iff.mp h
    obtain ⟨value, hvalue, h⟩ := bind_eq_ok_iff.mp h
    obtain ⟨key, hkey, h⟩ := bind_eq_ok_iff.mp h
    cases h
    exact ⟨p, lift_eq_ok_iff.mp hitem, hvalue, hkey⟩
  · rintro ⟨p, rfl, hvalue, hkey⟩
    exact bind_eq_ok_iff.mpr ⟨p, rfl, bind_eq_ok_iff.mpr ⟨_, hvalue,
      bind_eq_ok_iff.mpr ⟨_, hkey, rfl⟩⟩⟩

/-- The entries show under every key what its last property stands for, and nothing else. -/
structure Tallies [DecidableEq Text] (make : TextMaker Text) (table : UriTable)
    (inner : AtomView → Except Failure (Value Text)) (properties : List Property)
    (entries : List (Key Text × Value Text)) : Prop where
  nodup : (entries.map Prod.fst).Nodup
  shown : ∀ p ∈ properties, ∃ key, keyOf make table p.key = .ok key
  mem_iff : ∀ key, key ∈ entries.map Prod.fst ↔
    ∃ p ∈ properties, keyOf make table p.key = .ok key
  lookup_eq : ∀ k key, keyOf make table k = .ok key →
    (entries.lookup key).map .ok = (lastValue properties k).map inner

namespace Tallies

variable [DecidableEq Text] {make : TextMaker Text} {table : UriTable}
  {inner : AtomView → Except Failure (Value Text)} {properties : List Property}
  {entries : List (Key Text × Value Text)}

theorem nil : Tallies make table inner [] [] where
  nodup := List.nodup_nil
  shown _ hp := nomatch hp
  mem_iff _ := iff_of_false nofun nofun
  lookup_eq _ _ _ := rfl

theorem insert (hfaithful : Faithful make) (htable : table.uris.Nodup)
    (h : Tallies make table inner properties entries) {p : Property} {key : Key Text}
    {value : Value Text} (hkey : keyOf make table p.key = .ok key)
    (hvalue : inner p.value = .ok value) :
    Tallies make table inner (properties ++ [p]) (insertEntry key value entries) where
  nodup := nodup_keys_insertEntry h.nodup
  shown q hq := by
    rcases List.mem_append.mp hq with hq | hq
    · exact h.shown q hq
    · rw [List.mem_singleton.mp hq]
      exact ⟨key, hkey⟩
  mem_iff other := by
    rw [mem_keys_insertEntry, h.mem_iff]
    simp only [List.mem_append, List.mem_singleton, or_and_right, exists_or, exists_eq_left, hkey,
      Except.ok.injEq, eq_comm (a := key)]
  lookup_eq k other hother := by
    rw [lookup_insertEntry, lastValue_append_singleton]
    by_cases hk : p.key = k
    · rw [← hk, hkey] at hother
      cases hother
      rw [if_pos hk, if_pos rfl, Option.map_some, Option.map_some, hvalue]
    · have hne : other ≠ key := by
        rintro rfl
        exact hk (keyOf_inj hfaithful htable hkey hother)
      rw [if_neg hk, if_neg hne]
      exact h.lookup_eq k other hother

/-- Properties that have all been entered were all read, and the entries show them. -/
theorem mapM (hfaithful : Faithful make) (htable : table.uris.Nodup)
    (h : Tallies make table inner properties entries) {items : List (Except WireError Property)}
    {added : List (Key Text × Value Text)}
    (hitems : items.mapM (entryOf make table inner) = .ok added) :
    ∃ rest, items = rest.map .ok ∧ Tallies make table inner (properties ++ rest)
      (added.foldl (fun filled entry => insertEntry entry.1 entry.2 filled) entries) := by
  induction items generalizing properties entries added with
  | nil =>
    cases hitems
    exact ⟨[], rfl, by rwa [List.append_nil]⟩
  | cons item items ih =>
    rw [List.mapM_cons] at hitems
    obtain ⟨entry, hentry, hitems⟩ := bind_eq_ok_iff.mp hitems
    obtain ⟨others, hothers, hitems⟩ := bind_eq_ok_iff.mp hitems
    cases hitems
    obtain ⟨p, rfl, hvalue, hkey⟩ := entryOf_eq_ok_iff.mp hentry
    obtain ⟨rest, rfl, htallies⟩ := ih (h.insert hfaithful htable hkey hvalue) hothers
    rw [List.append_assoc] at htallies
    exact ⟨p :: rest, rfl, htallies⟩

theorem lookup_of_lastValue (h : Tallies make table inner properties entries) {k : TypeId}
    {found : AtomView} (hlast : lastValue properties k = some found) :
    ∃ key value, keyOf make table k = .ok key ∧ entries.lookup key = some value ∧
      inner found = .ok value := by
  obtain ⟨p, hp, rfl⟩ := List.mem_map.mp
    (isSome_lastValue_iff.mp (Option.isSome_of_eq_some hlast))
  obtain ⟨key, hkey⟩ := h.shown p hp
  have hlookup := h.lookup_eq p.key key hkey
  rw [hlast, Option.map_some, Option.map_eq_some_iff] at hlookup
  obtain ⟨value, hvalue, hinner⟩ := hlookup
  exact ⟨key, value, hkey, hvalue, hinner.symm⟩

theorem mem_keys_iff (hfaithful : Faithful make) (htable : table.uris.Nodup)
    (h : Tallies make table inner properties entries) (k : TypeId) :
    (∃ key, keyOf make table k = .ok key ∧ key ∈ entries.map Prod.fst) ↔
      (lastValue properties k).isSome = true := by
  rw [isSome_lastValue_iff, List.mem_map]
  constructor
  · rintro ⟨key, hkey, hmem⟩
    obtain ⟨p, hp, hsame⟩ := (h.mem_iff key).mp hmem
    exact ⟨p, hp, keyOf_inj hfaithful htable hsame hkey⟩
  · rintro ⟨p, hp, rfl⟩
    obtain ⟨key, hkey⟩ := h.shown p hp
    exact ⟨key, hkey, (h.mem_iff key).mpr ⟨p, hp, hkey⟩⟩

/-- There are as many entries as distinct keys. -/
theorem length_entries (hfaithful : Faithful make) (htable : table.uris.Nodup)
    (h : Tallies make table inner properties entries) :
    entries.length = (properties.map Property.key).toFinset.card := by
  let shown (k : TypeId) : Key Text := (keyOf make table k).toOption.getD (.id k)
  have hshown : ∀ p ∈ properties, keyOf make table p.key = .ok (shown p.key) := by
    intro p hp
    obtain ⟨key, hkey⟩ := h.shown p hp
    simp [shown, hkey, Except.toOption]
  have hkeys : (entries.map Prod.fst).toFinset =
      (properties.map Property.key).toFinset.image shown := by
    ext key
    simp only [List.mem_toFinset, Finset.mem_image, h.mem_iff, List.mem_map,
      exists_exists_and_eq_and]
    refine exists_congr fun p => and_congr_right fun hp => ?_
    rw [hshown p hp, Except.ok.injEq]
  have hinj : Set.InjOn shown (properties.map Property.key).toFinset := by
    intro a ha b hb hab
    simp only [Finset.mem_coe, List.mem_toFinset, List.mem_map] at ha hb
    obtain ⟨p, hp, rfl⟩ := ha
    obtain ⟨q, hq, rfl⟩ := hb
    exact keyOf_inj hfaithful htable (hshown p hp) (hab ▸ hshown q hq)
  calc entries.length
    _ = (entries.map Prod.fst).length := (List.length_map _).symm
    _ = (entries.map Prod.fst).toFinset.card := (List.toFinset_card_of_nodup h.nodup).symm
    _ = (properties.map Property.key).toFinset.card := by
      rw [hkeys, Finset.card_image_of_injOn hinj]

end Tallies

/-- An error is the last item, behind all records. -/
theorem Region.items_of_error {α : Type} {r : Region α} {e : WireError} (h : .error e ∈ r.items) :
    r.items = r.values.map .ok ++ [.error e] := by
  rw [values]
  unfold items at h ⊢
  generalize r.first = pos at h ⊢
  induction pos using r.itemsFrom_induction with
  | behind pos hpos =>
    rw [itemsFrom_of_le hpos] at h
    cases h
  | error pos found hpos hitem =>
    rw [itemsFrom_of_error hpos hitem] at h ⊢
    cases List.mem_singleton.mp h
    rfl
  | record pos value hpos hchild ih =>
    have hitem := itemAt_eq_ok_iff.mpr ⟨value, hchild, rfl, rfl⟩
    rw [itemsFrom_of_ok hpos hitem] at h ⊢
    rcases List.mem_cons.mp h with hhead | hrest
    · cases hhead
    · exact congrArg (_ :: ·) (ih hrest)

section Decoding

variable [DecidableEq Text] {make : TextMaker Text} {s : Source} {table : UriTable}
  {inner outer : AtomView → Except Failure (Value Text)} {atom : AtomView} {value : Value Text}
  {entries : List (Key Text × Value Text)}

/-- Whatever the vocabulary, an atom is decoded as one of some term is. -/
theorem exists_valueAs (make : TextMaker Text) (s : Source) (table : UriTable) (atom : AtomView) :
    ∃ term, ∀ inner, valueWith make s table inner atom =
      valueAs make s table inner atom term := by
  unfold valueWith
  dsimp only
  by_cases hkind : (s.vocabulary.scalarKind? atom.type).isSome = true
  · exact ⟨.int, fun inner => if_pos hkind⟩
  cases hform : formOf? s.vocabulary atom.type with
  | some form =>
    refine ⟨form.term, fun inner => (if_neg hkind).trans ?_⟩
    cases form <;> rfl
  | none =>
    simp only [if_neg hkind]
    by_cases hliteral : atom.type = s.vocabulary.id .literal
    · exact ⟨.literal, fun inner => if_pos hliteral⟩
    simp only [if_neg hliteral]
    by_cases hvector : atom.type = s.vocabulary.id .vector
    · exact ⟨.vector, fun inner => if_pos hvector⟩
    simp only [if_neg hvector]
    by_cases htuple : atom.type = s.vocabulary.id .tuple
    · exact ⟨.tuple, fun inner => if_pos htuple⟩
    simp only [if_neg htuple]
    by_cases hobject : s.vocabulary.isObject atom.type = true
    · exact ⟨.object, fun inner => if_pos hobject⟩
    simp only [if_neg hobject]
    by_cases hsequence : atom.type = s.vocabulary.id .sequence
    · exact ⟨.sequence, fun inner => if_pos hsequence⟩
    · exact ⟨.chunk, fun inner => if_neg hsequence⟩

/-- Only an object is decoded as a dictionary. -/
theorem object_of_dict (h : valueWith make s table inner atom = .ok (.dict entries)) :
    ∃ o, s.object atom = .ok o ∧
      dictValue make table inner o.properties.items = .ok (.dict entries) := by
  obtain ⟨term, hterm⟩ := exists_valueAs make s table atom
  rw [hterm inner] at h
  cases term with
  | int | long | float | double | bool | urid =>
    obtain ⟨x, _, hx⟩ := bind_eq_ok_iff.mp h
    cases x <;> cases hx
  | string | path | uri | literal =>
    obtain ⟨content, _, htext⟩ := bind_eq_ok_iff.mp h
    obtain ⟨text, _, hvalue⟩ := bind_eq_ok_iff.mp htext
    cases hvalue
  | vector =>
    obtain ⟨vector, _, hvalue⟩ := bind_eq_ok_iff.mp h
    cases hvalue
  | tuple | sequence =>
    obtain ⟨region, _, hregion⟩ := bind_eq_ok_iff.mp h
    obtain ⟨values, _, hvalues⟩ := bind_eq_ok_iff.mp hregion
    cases hvalues
  | object | blank =>
    obtain ⟨o, ho, hdict⟩ := bind_eq_ok_iff.mp h
    exact ⟨o, lift_eq_ok_iff.mp ho, hdict⟩
  | chunk | property | frame | beat => cases h

section Monotone

variable {α β : Type}

theorem exists_mapM_iff {f : α → Except Failure β} {xs : List α} :
    (∃ ys, xs.mapM f = .ok ys) ↔ ∀ x ∈ xs, ∃ y, f x = .ok y := by
  induction xs with
  | nil => exact iff_of_true ⟨[], rfl⟩ nofun
  | cons x xs ih =>
    rw [List.mapM_cons, List.forall_mem_cons, ← ih]
    constructor
    · rintro ⟨ys, h⟩
      obtain ⟨y, hy, hrest⟩ := bind_eq_ok_iff.mp h
      obtain ⟨others, hothers, _⟩ := bind_eq_ok_iff.mp hrest
      exact ⟨⟨y, hy⟩, others, hothers⟩
    · rintro ⟨⟨y, hy⟩, others, hothers⟩
      exact ⟨_, bind_eq_ok_iff.mpr ⟨y, hy, bind_eq_ok_iff.mpr ⟨others, hothers, rfl⟩⟩⟩

theorem mapM_mono {f g : α → Except Failure β} (h : ∀ a b, f a = .ok b → g a = .ok b)
    {xs : List α} {ys : List β} (hxs : xs.mapM f = .ok ys) : xs.mapM g = .ok ys := by
  induction xs generalizing ys with
  | nil => exact hxs
  | cons x xs ih =>
    rw [List.mapM_cons] at hxs ⊢
    obtain ⟨y, hy, hrest⟩ := bind_eq_ok_iff.mp hxs
    obtain ⟨others, hothers, hys⟩ := bind_eq_ok_iff.mp hrest
    rw [h x y hy, ok_bind, ih hothers, ok_bind]
    exact hys

end Monotone

theorem valueAs_mono (h : ∀ atom value, inner atom = .ok value → outer atom = .ok value)
    {term : Term} (hvalue : valueAs make s table inner atom term = .ok value) :
    valueAs make s table outer atom term = .ok value := by
  cases term with
  | tuple =>
    obtain ⟨r, hr, hlist⟩ := bind_eq_ok_iff.mp hvalue
    obtain ⟨values, hvalues, hend⟩ := bind_eq_ok_iff.mp hlist
    refine bind_eq_ok_iff.mpr ⟨r, hr, bind_eq_ok_iff.mpr ⟨values, mapM_mono ?_ hvalues, hend⟩⟩
    intro item value hitem
    obtain ⟨atom, hatom, hinner⟩ := bind_eq_ok_iff.mp hitem
    exact bind_eq_ok_iff.mpr ⟨atom, hatom, h atom value hinner⟩
  | object | blank =>
    obtain ⟨o, ho, hdict⟩ := bind_eq_ok_iff.mp hvalue
    rw [dictValue_eq] at hdict
    obtain ⟨entries, hentries, hend⟩ := bind_eq_ok_iff.mp hdict
    refine bind_eq_ok_iff.mpr ⟨o, ho, ?_⟩
    rw [dictValue_eq]
    refine bind_eq_ok_iff.mpr ⟨entries, mapM_mono ?_ hentries, hend⟩
    intro item entry hentry
    obtain ⟨p, hitem, hinner, hkey⟩ := entryOf_eq_ok_iff.mp hentry
    exact entryOf_eq_ok_iff.mpr ⟨p, hitem, h _ _ hinner, hkey⟩
  | sequence =>
    obtain ⟨q, hq, hlist⟩ := bind_eq_ok_iff.mp hvalue
    obtain ⟨values, hvalues, hend⟩ := bind_eq_ok_iff.mp hlist
    refine bind_eq_ok_iff.mpr ⟨q, hq, bind_eq_ok_iff.mpr ⟨values, mapM_mono ?_ hvalues, hend⟩⟩
    intro item pair hitem
    obtain ⟨event, hevent, hrest⟩ := bind_eq_ok_iff.mp hitem
    obtain ⟨value, hinner, hpair⟩ := bind_eq_ok_iff.mp hrest
    exact bind_eq_ok_iff.mpr ⟨event, hevent, bind_eq_ok_iff.mpr ⟨value, h _ value hinner, hpair⟩⟩
  | _ => exact hvalue

/-- Room for more levels changes no value that there is. -/
theorem valueTo_mono {levels more : Nat} (hle : levels ≤ more)
    (h : valueTo make s table levels atom = .ok value) :
    valueTo make s table more atom = .ok value := by
  induction levels generalizing more atom value with
  | zero => cases h
  | succ levels ih =>
    obtain ⟨more, rfl⟩ := Nat.exists_eq_succ_of_ne_zero (Nat.ne_zero_of_lt hle)
    obtain ⟨term, hterm⟩ := exists_valueAs make s table atom
    rw [valueTo, hterm] at h ⊢
    refine valueAs_mono ?_ h
    intro atom value hvalue
    exact ih (Nat.le_of_succ_le_succ hle) hvalue

end Decoding

section Objects

variable [DecidableEq Text] {make : TextMaker Text} {s : Source} {table : UriTable} {levels : Nat}
  {view : AtomView} {o : ObjectView} {entries : List (Key Text × Value Text)}

/-- A dictionary comes of an object whose properties have all been read. -/
theorem tallies_of_dict (hfaithful : Faithful make) (htable : table.uris.Nodup)
    (h : valueTo make s table (levels + 1) view = .ok (.dict entries)) :
    ∃ o, s.object view = .ok o ∧ o.properties.items = o.properties.values.map .ok ∧
      Tallies make table (valueTo make s table levels) o.properties.values entries := by
  obtain ⟨o, hopen, hentries⟩ := object_of_dict h
  rw [dictValue_eq] at hentries
  obtain ⟨added, hadded, hfinal⟩ := bind_eq_ok_iff.mp hentries
  cases hfinal
  obtain ⟨rest, hitems, htallies⟩ := Tallies.nil.mapM hfaithful htable hadded
  rw [foldl_insertEntry] at htallies
  have hvalues : o.properties.values = rest := by
    rw [Region.values, hitems, List.filterMap_map]
    exact List.filterMap_some
  exact ⟨o, hopen, by rw [hvalues, hitems], by rwa [hvalues]⟩

theorem ne_dict_of_error (hfaithful : Faithful make) (htable : table.uris.Nodup)
    (hopen : s.object view = .ok o) {e : WireError} (h : .error e ∈ o.properties.items) :
    valueTo make s table (levels + 1) view ≠ .ok (.dict entries) := by
  intro hresult
  obtain ⟨found, hfound, hitems, _⟩ := tallies_of_dict hfaithful htable hresult
  cases hopen.symm.trans hfound
  rw [hitems] at h
  obtain ⟨_, _, hok⟩ := List.mem_map.mp h
  cases hok

section Known

variable (hv : s.vocabulary.Resolved)
  (htype : view.type = s.vocabulary.id .object ∨ view.type = s.vocabulary.id .blank)

include hv htype

theorem valueTo_object :
    valueTo make s table (levels + 1) view = (lift (s.object view) >>= fun o =>
      dictValue make table (valueTo make s table levels) o.properties.items) := by
  rcases htype with htype | htype <;> exact valueWith_term hv htype

/-- An object with an id of its own is decoded as a dictionary or not at all. -/
theorem dict_of_object {value : Value Text}
    (h : valueTo make s table (levels + 1) view = .ok value) :
    ∃ entries, value = .dict entries := by
  rw [valueTo_object hv htype] at h
  obtain ⟨o, _, hdict⟩ := bind_eq_ok_iff.mp h
  obtain ⟨entries, _, hend⟩ := bind_eq_ok_iff.mp hdict
  cases hend
  exact ⟨entries, rfl⟩

theorem exists_dict_iff (hutf8 : Utf8Only make) :
    (∃ entries, valueTo make s table (levels + 1) view = .ok (.dict entries)) ↔
      ∃ o, s.object view = .ok o ∧ ∀ item ∈ o.properties.items, ∃ p value,
        item = .ok p ∧ valueTo make s table levels p.value = .ok value ∧
        ∀ uri, table.unmap p.key = some uri → IsUtf8 uri := by
  have hentry (item : Except WireError Property) :
      (∃ entry, entryOf make table (valueTo make s table levels) item = .ok entry) ↔
        ∃ p value, item = .ok p ∧ valueTo make s table levels p.value = .ok value ∧
          ∀ uri, table.unmap p.key = some uri → IsUtf8 uri := by
    simp only [entryOf_eq_ok_iff, ← exists_keyOf_iff hutf8]
    constructor
    · rintro ⟨entry, p, hitem, hvalue, hkey⟩
      exact ⟨p, entry.2, hitem, hvalue, entry.1, hkey⟩
    · rintro ⟨p, value, hitem, hvalue, key, hkey⟩
      exact ⟨(key, value), p, hitem, hvalue, hkey⟩
  simp only [← hentry, ← exists_mapM_iff]
  rw [valueTo_object hv htype]
  constructor
  · rintro ⟨entries, h⟩
    obtain ⟨o, hopen, hdict⟩ := bind_eq_ok_iff.mp h
    rw [dictValue_eq] at hdict
    obtain ⟨added, hadded, _⟩ := bind_eq_ok_iff.mp hdict
    exact ⟨o, lift_eq_ok_iff.mp hopen, added, hadded⟩
  · rintro ⟨o, hopen, added, hadded⟩
    refine ⟨dictOf added, bind_eq_ok_iff.mpr ⟨o, lift_eq_ok_iff.mpr hopen, ?_⟩⟩
    rw [dictValue_eq]
    exact bind_eq_ok_iff.mpr ⟨added, hadded, rfl⟩

end Known

end Objects

namespace Registry

theorem uris_table (r : Registry) : r.table.uris = r.uris := rfl

theorem nodup_resolve (calls : List Call) :
    (empty.run calls).2.table.resolve.2.uris.Nodup := by
  have hkeeps := Keeps.start.run calls
  have hterms : Term.all.Nodup := by decide
  rw [UriTable.resolve, ← (hkeeps.consistent.mapTerms_table Term.all).2.1, uris_table]
  exact (hkeeps.mapTerms hterms).nodup

end Registry

/-- For a registry after any calls, and any block and view: a dictionary that a view is decoded
as shows under each key what `ObjectView.find` gives for it, decoded, and has an entry for every
distinct key. An error among the properties fails the decoding, while the properties before it
are found. As long as the ids do not wrap, an object is decoded as nothing else, and it is
decoded if all its properties are and the URIs of their keys are UTF-8. -/
theorem dict_agrees_with_find [DecidableEq Text] (make : TextMaker Text) (hutf8 : Utf8Only make)
    (hfaithful : Faithful make) (calls : List Registry.Call) (block : Block) (levels : Nat)
    (view : AtomView) :
    let known := (Registry.empty.run calls).2.table
    let v := known.resolve.1
    let table := known.resolve.2
    let s : Source := ⟨v, block⟩
    let result := valueTo make s table (levels + 1) view
    (∀ entries, result = .ok (.dict entries) → ∃ o, s.object view = .ok o ∧
      (∀ k, (∃ key, keyOf make table k = .ok key ∧ key ∈ entries.map Prod.fst) ↔
        (o.find k).isSome = true) ∧
      (∀ k found, o.find k = some found → ∃ key value, keyOf make table k = .ok key ∧
        entries.lookup key = some value ∧
        ∀ more, levels ≤ more → valueTo make s table more found = .ok value) ∧
      (entries.map Prod.fst).Nodup ∧
      entries.length = (o.properties.values.map Property.key).toFinset.card) ∧
    (∀ o, s.object view = .ok o →
      (∀ k found, o.find k = some found ↔ ∃ before p after,
        o.properties.values = before ++ p :: after ∧ p.key = k ∧ p.value = found ∧
          ∀ q ∈ after, q.key ≠ k) ∧
      ∀ e, .error e ∈ o.properties.items →
        o.properties.items = o.properties.values.map .ok ++ [.error e] ∧
        ∀ entries, result ≠ .ok (.dict entries)) ∧
    (table.size < UInt32.size → view.type = v.id .object ∨ view.type = v.id .blank →
      (∀ value, result = .ok value → ∃ entries, value = .dict entries) ∧
      ((∃ entries, result = .ok (.dict entries)) ↔ ∃ o, s.object view = .ok o ∧
        ∀ item ∈ o.properties.items, ∃ p value,
          item = .ok p ∧ valueTo make s table levels p.value = .ok value ∧
          ∀ uri, table.unmap p.key = some uri → IsUtf8 uri) ∧
      ∀ o e, s.object view = .ok o → .error e ∈ o.properties.items →
        ∃ failure, result = .error failure) := by
  have htable := Registry.nodup_resolve calls
  -- Nothing more is needed of the calls, nor of how the terms got their ids.
  generalize (Registry.empty.run calls).2.table = known at htable ⊢
  have hresolved := UriTable.resolved_of_size_lt (t := known)
  intro _
  generalize known.resolve = resolved at htable hresolved ⊢
  intro v table s result
  refine ⟨?_, ?_, ?_⟩
  · intro entries hresult
    obtain ⟨o, hopen, _, htallies⟩ := tallies_of_dict hfaithful htable hresult
    simp only [ObjectView.find_eq]
    refine ⟨o, hopen, htallies.mem_keys_iff hfaithful htable, ?_, htallies.nodup,
      htallies.length_entries hfaithful htable⟩
    intro k found hfind
    obtain ⟨key, value, hkey, hlookup, hvalue⟩ := htallies.lookup_of_lastValue hfind
    exact ⟨key, value, hkey, hlookup, fun more hmore => valueTo_mono hmore hvalue⟩
  · intro o hopen
    simp only [ObjectView.find_eq]
    refine ⟨fun k found => lastValue_eq_some_iff, fun e hin => ?_⟩
    exact ⟨Region.items_of_error hin, fun entries => ne_dict_of_error hfaithful htable hopen hin⟩
  · intro hsize htype
    refine ⟨fun value => dict_of_object (hresolved hsize) htype,
      exists_dict_iff (hresolved hsize) htype hutf8, fun o e hopen hin => ?_⟩
    cases hresult : result with
    | error failure => exact ⟨failure, rfl⟩
    | ok value =>
      obtain ⟨entries, rfl⟩ := dict_of_object (hresolved hsize) htype hresult
      exact absurd hresult (ne_dict_of_error hfaithful htable hopen hin)

theorem exists_of_isOk {ε α : Type} {x : Except ε α} (h : x.isOk = true) : ∃ a, x = .ok a := by
  cases x with
  | error e => cases h
  | ok a => exact ⟨a, rfl⟩

/-- A key that is known by its URI comes twice and the key 0 once. Three more bytes are no
property. -/
theorem dict_agrees_with_find_repeated :
    let calls : List Registry.Call := [.map [104, 105]]
    let v := (Registry.empty.run calls).2.table.resolve.1
    let table := (Registry.empty.run calls).2.table.resolve.2
    let property (key : TypeId) (byte : UInt8) : Bytes :=
      word32 key ++ word32 0 ++ word32 12 ++ word32 1 ++ [byte] ++ List.replicate 7 0
    let block (more : Bytes) : Block := ⟨some 0, word32 16 ++ word32 (80 + more.length.toUInt32) ++
      (word32 3 ++ word32 0 ++ property 1 7 ++ property 0 8 ++ property 1 9 ++ more)⟩
    let view (more : Bytes) := (block more).viewAt 0 88
    let last : AtomView := ⟨12, 1, 72, 88, some 0, 80, [9]⟩
    Utf8Only stringOf ∧ Faithful stringOf ∧ table.size < UInt32.size ∧
    (∀ more ∈ [[], [1, 2, 3]], (view more).type = v.id .blank) ∧
    (∃ entries value, valueTo stringOf ⟨v, block []⟩ table 65 (view []) = .ok (.dict entries) ∧
      entries.length = 2 ∧ entries.lookup (.uri "hi") = some value ∧
      valueTo stringOf ⟨v, block []⟩ table 64 last = .ok value) ∧
    ∃ failure, valueTo stringOf ⟨v, block [1, 2, 3]⟩ table 65 (view [1, 2, 3]) =
      .error failure := by
  intro calls v table property block view last
  have hsize : table.size < UInt32.size := by decide +kernel
  have htype : ∀ more ∈ [[], [1, 2, 3]], (view more).type = v.id .blank := by decide +kernel
  refine ⟨utf8Only_stringOf, faithful_stringOf, hsize, htype, ?_, ?_⟩
  · obtain ⟨hdict, _, hobject⟩ := dict_agrees_with_find stringOf utf8Only_stringOf
      faithful_stringOf calls (block []) 64 (view [])
    obtain ⟨decoded, hresult⟩ : ∃ decoded,
        valueTo stringOf ⟨v, block []⟩ table 65 (view []) = .ok decoded :=
      exists_of_isOk (by decide +kernel)
    obtain ⟨entries, rfl⟩ := (hobject hsize (Or.inr (htype [] (by decide)))).1 decoded hresult
    obtain ⟨o, hopen, _, hfind, _, hcount⟩ := hdict entries hresult
    have hproperties := (Source.holds_of_object hopen).2
    obtain ⟨key, value, hkey, hlookup, hvalue⟩ := hfind 1 last (by
      rw [ObjectView.find, hproperties]
      decide +kernel)
    have hknown : keyOf stringOf table 1 = .ok (.uri "hi") := by decide +kernel
    cases hkey.symm.trans hknown
    refine ⟨entries, value, hresult, hcount.trans ?_, hlookup, hvalue 64 (Nat.le_refl 64)⟩
    rw [hproperties]
    decide +kernel
  · obtain ⟨_, _, hobject⟩ := dict_agrees_with_find stringOf utf8Only_stringOf
      faithful_stringOf calls (block [1, 2, 3]) 64 (view [1, 2, 3])
    obtain ⟨o, hopen⟩ : ∃ o, Source.object ⟨v, block [1, 2, 3]⟩ (view [1, 2, 3]) = .ok o :=
      exists_of_isOk (by decide +kernel)
    apply (hobject hsize (Or.inr (htype _ (by decide)))).2.2 o .malformedContainer hopen
    rw [(Source.holds_of_object hopen).2]
    decide +kernel

end AtomWire
