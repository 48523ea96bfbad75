import Mathlib.Data.List.Induction
import AtomWire.Dynamic.Meaning
import AtomWire.Proofs.Resolution
import AtomWire.Proofs.Trees

/-!
# Meanings of parts

Scalars, stamps and elements are decoded as what they stand for, and entries that are put
into a dictionary one after another make up the one that is meant. The meaning of a
container is got item by item from those of its branches.
-/

namespace AtomWire

set_option autoImplicit false

open AtomWire.Dynamic

variable {Text : Type}

theorem unsigned_eq_ofLE (bytes : Bytes) : unsigned bytes = ofLE bytes := by
  induction bytes with
  | nil => rfl
  | cons b rest ih =>
    rw [unsigned, List.foldr_cons]
    exact congrArg (b.toNat + 256 * ·) ih

theorem unsigned_take_lt (bytes : Bytes) (width : Nat) :
    unsigned (bytes.take width) < 256 ^ width := by
  rw [unsigned_eq_ofLE]
  exact Nat.lt_of_lt_of_le (ofLE_lt _)
    (Nat.pow_le_pow_right (by decide) (List.length_take_le width bytes))

theorem toNat_getWord32 (bytes : Bytes) : (getWord32 bytes).toNat = unsigned (bytes.take 4) := by
  rw [getWord32, UInt32.toNat_ofNat', ← unsigned_eq_ofLE]
  exact Nat.mod_eq_of_lt (unsigned_take_lt bytes 4)

theorem toNat_getWord64 (bytes : Bytes) : (getWord64 bytes).toNat = unsigned (bytes.take 8) := by
  rw [getWord64, UInt64.toNat_ofNat', ← unsigned_eq_ofLE]
  exact Nat.mod_eq_of_lt (unsigned_take_lt bytes 8)

theorem signed_toNat {bits : Nat} (x : BitVec bits) : signed (2 ^ bits) x.toNat = x.toInt := by
  rw [signed, BitVec.toInt]

theorem Scalar.ofScalar_eq (x : Scalar) : (Value.ofScalar x : Value Text) = x.meaning := by
  cases x <;> rfl

theorem Stamp.ofStamp_eq (s : Stamp) : (Value.ofStamp s : Value Text) = s.meaning := by
  cases s <;> rfl

/-- The scalar that is read is the one that the digits of the element make up. -/
theorem elementMeaning_eq {v : Vocabulary} (hv : v.Resolved) {kind : ScalarKind} {element : Bytes}
    (hwidth : kind.width ≤ element.length) :
    (elementMeaning v (v.scalarType kind) element : Value Text) =
      (kind.read element).meaning := by
  have hword := toNat_getWord32 element
  have hlong := toNat_getWord64 element
  cases kind <;> rw [ScalarKind.width] at hwidth <;>
    simp only [elementMeaning, Vocabulary.scalarType, ScalarKind.term, hv.id_eq_iff, hwidth,
      ← hword, ← hlong, ScalarKind.read, Scalar.meaning, reduceCtorEq, false_and, and_self,
      if_false, if_true]
  case int => exact congrArg Value.int (signed_toNat (getWord32 element).toBitVec)
  case long => exact congrArg Value.int (signed_toNat (getWord64 element).toBitVec)
  case float => rw [UInt32.ofNat_toNat]
  case double => rw [UInt64.ofNat_toNat]
  case bool => simp only [ne_eq, ← UInt32.toNat_inj, UInt32.toNat_zero]

theorem elementMeaning_eq_bytes {v : Vocabulary} {childType : TypeId} {element : Bytes}
    (h : ∀ kind, childType = v.scalarType kind → element.length < kind.width) :
    (elementMeaning v childType element : Value Text) = .bytes element := by
  have hnone (kind : ScalarKind) : ¬ (childType = v.id kind.term ∧ kind.width ≤ element.length) :=
    fun hkind => Nat.not_le.mpr (h kind hkind.1) hkind.2
  calc elementMeaning v childType element
    _ = _ := if_neg (hnone .int)
    _ = _ := if_neg (hnone .long)
    _ = _ := if_neg (hnone .float)
    _ = _ := if_neg (hnone .double)
    _ = _ := if_neg (hnone .bool)
    _ = .bytes element := if_neg (hnone .urid)

theorem elementValue_eq {s : Source} (hv : s.vocabulary.Resolved) (childType : TypeId)
    (element : Bytes) :
    (elementValue s childType element : Value Text) =
      elementMeaning s.vocabulary childType element := by
  unfold elementValue Vocabulary.decode
  cases hkind : s.vocabulary.scalarKind? childType with
  | none =>
    refine (elementMeaning_eq_bytes fun kind hkind' => ?_).symm
    rw [hv.scalarKind?_eq_some_iff.mpr hkind'] at hkind
    cases hkind
  | some kind =>
    obtain rfl := hv.scalarKind?_eq_some_iff.mp hkind
    by_cases hwidth : kind.width ≤ element.length
    · simp only [if_neg (Nat.not_lt.mpr hwidth), Scalar.ofScalar_eq, elementMeaning_eq hv hwidth]
    · simp only [if_pos (Nat.not_le.mp hwidth)]
      refine (elementMeaning_eq_bytes fun other hother => ?_).symm
      have hsame := hv.scalarKind?_eq_some_iff.mpr hother
      rw [hkind] at hsame
      cases hsame
      exact Nat.not_le.mp hwidth

section Entries

variable [DecidableEq Text] {key other : Key Text} {value : Value Text}
  {entries : List (Key Text × Value Text)}

theorem lookup_insertEntry :
    (insertEntry key value entries).lookup other =
      if other = key then some value else entries.lookup other := by
  induction entries with
  | nil => by_cases h : other = key <;> simp [insertEntry, List.lookup_cons, h, beq_false_of_ne]
  | cons entry rest ih =>
    obtain ⟨k, old⟩ := entry
    by_cases h : other = k
    · subst h
      by_cases hk : other = key <;> simp [insertEntry, hk]
    · have hne : (other == k) = false := beq_false_of_ne h
      by_cases hk : k = key
      · subst hk
        simp only [insertEntry, if_true, List.lookup_cons, hne, if_neg h]
      · simp only [insertEntry, if_neg hk, List.lookup_cons, hne, ih]

theorem filter_insertEntry_self :
    (insertEntry key value entries).filter (fun entry => entry.1 ≠ key) =
      entries.filter fun entry => entry.1 ≠ key := by
  induction entries with
  | nil => simp [insertEntry]
  | cons entry rest ih =>
    by_cases hk : entry.1 = key
    · simp [insertEntry, hk]
    · simpa [insertEntry, hk] using ih

theorem filter_insertEntry_of_ne (h : key ≠ other) :
    (insertEntry key value entries).filter (fun entry => entry.1 ≠ other) =
      insertEntry key value (entries.filter fun entry => entry.1 ≠ other) := by
  induction entries with
  | nil => simp [insertEntry, h]
  | cons entry rest ih =>
    by_cases hk : entry.1 = key
    · simp [insertEntry, hk, h]
    · by_cases hother : entry.1 = other
      · have hne : other ≠ key := Ne.symm h
        simpa [insertEntry, hother, hne] using ih
      · simpa [insertEntry, hk, hother] using ih

/-- One more entry at the end is put into the dictionary of those before. -/
theorem dictOf_append_singleton :
    dictOf (entries ++ [(key, value)]) = insertEntry key value (dictOf entries) := by
  induction entries with
  | nil => rfl
  | cons entry rest ih =>
    obtain ⟨k, first⟩ := entry
    rw [List.cons_append, dictOf, dictOf, ih, lookup_insertEntry]
    by_cases hk : k = key
    · subst hk
      rw [if_pos rfl, filter_insertEntry_self, insertEntry, if_pos rfl, Option.getD_some]
    · rw [if_neg hk, filter_insertEntry_of_ne (Ne.symm hk), insertEntry, if_neg hk]

theorem foldl_insertEntry :
    entries.foldl (fun filled entry => insertEntry entry.1 entry.2 filled) [] = dictOf entries := by
  induction entries using List.reverseRecOn with
  | nil => rfl
  | append_singleton entries entry ih =>
    rw [List.foldl_append, ih]
    exact dictOf_append_singleton.symm

end Entries

namespace Tree

section Lists

variable [DecidableEq Text] {make : TextMaker Text} {v : Vocabulary} {table : UriTable}

theorem itemMeanings_eq (items : List Tree) :
    itemMeanings make v table items = items.mapM fun item => item.meaning make v table := by
  induction items with
  | nil => rfl
  | cons item rest ih =>
    rw [itemMeanings, ih, List.mapM_cons]

/-- The entry that a property stands for. -/
def propertyMeaning (make : TextMaker Text) (v : Vocabulary) (table : UriTable)
    (p : TypeId × TypeId × Tree) : Option (Key Text × Value Text) := do
  let value ← p.2.2.meaning make v table
  let key ← keyMeaning make table p.1
  return (key, value)

theorem propertyMeanings_eq (properties : List (TypeId × TypeId × Tree)) :
    propertyMeanings make v table properties =
      properties.mapM (propertyMeaning make v table) := by
  induction properties with
  | nil => rfl
  | cons p rest ih =>
    rw [propertyMeanings, ih, List.mapM_cons, propertyMeaning]
    simp only [bind_assoc, pure_bind]

def eventMeaning (make : TextMaker Text) (v : Vocabulary) (table : UriTable) (e : Stamp × Tree) :
    Option (Value Text) := do
  let value ← e.2.meaning make v table
  return .pair e.1.meaning value

theorem eventMeanings_eq (events : List (Stamp × Tree)) :
    eventMeanings make v table events = events.mapM (eventMeaning make v table) := by
  induction events with
  | nil => rfl
  | cons e rest ih =>
    rw [eventMeanings, ih, List.mapM_cons, eventMeaning]
    simp only [bind_assoc, pure_bind]

theorem mem_itemTexts_iff {items : List Tree} {text : Bytes} :
    text ∈ itemTexts table items ↔ ∃ item ∈ items, text ∈ item.texts table := by
  induction items with
  | nil => simp [itemTexts]
  | cons item rest ih => simp [itemTexts, ih]

theorem mem_propertyTexts_iff {properties : List (TypeId × TypeId × Tree)} {text : Bytes} :
    text ∈ propertyTexts table properties ↔
      ∃ p ∈ properties, text ∈ p.2.2.texts table ∨ table.unmap p.1 = some text := by
  induction properties with
  | nil => simp [propertyTexts]
  | cons p rest ih => simp [propertyTexts, ih, or_assoc]

theorem mem_eventTexts_iff {events : List (Stamp × Tree)} {text : Bytes} :
    text ∈ eventTexts table events ↔ ∃ e ∈ events, text ∈ e.2.texts table := by
  induction events with
  | nil => simp [eventTexts]
  | cons e rest ih => simp [eventTexts, ih]

end Lists

section Nesting

variable {levels : Nat}

theorem succ_le_itemsNesting_iff {items : List Tree} :
    levels + 1 ≤ itemsNesting items ↔ ∃ item ∈ items, levels ≤ item.nesting := by
  induction items with
  | nil => simp [itemsNesting]
  | cons item rest ih =>
    simp only [itemsNesting, List.mem_cons, exists_eq_or_imp, ← ih]
    omega

theorem succ_le_propertiesNesting_iff {properties : List (TypeId × TypeId × Tree)} :
    levels + 1 ≤ propertiesNesting properties ↔ ∃ p ∈ properties, levels ≤ p.2.2.nesting := by
  induction properties with
  | nil => simp [propertiesNesting]
  | cons p rest ih =>
    obtain ⟨key, context, value⟩ := p
    simp only [propertiesNesting, List.mem_cons, exists_eq_or_imp, ← ih]
    omega

theorem succ_le_eventsNesting_iff {events : List (Stamp × Tree)} :
    levels + 1 ≤ eventsNesting events ↔ ∃ e ∈ events, levels ≤ e.2.nesting := by
  induction events with
  | nil => simp [eventsNesting]
  | cons e rest ih =>
    simp only [eventsNesting, List.mem_cons, exists_eq_or_imp, ← ih]
    omega

end Nesting

end Tree

end AtomWire
