import AtomWire.Bytes.Lemmas
import AtomWire.Proofs.Steps

/-!
# Payloads of scalars

Reading the payload of a scalar gives the scalar, whatever follows the payload. The other
way round, a scalar that was read has the payload it was read from, except that a boolean
has one of two words only. A vocabulary decides which kind is read; ids that collide fall
to the first kind that has them.
-/

namespace AtomWire

set_option autoImplicit false

namespace Scalar

theorem read_payload_append (x : Scalar) (rest : Bytes) :
    x.kind.read (x.payload ++ rest) = x := by
  cases x with
  | bool value => cases value <;> simp [kind, payload, ScalarKind.read]
  | _ => simp [kind, payload, ScalarKind.read]

theorem read_payload (x : Scalar) : x.kind.read x.payload = x := by
  simpa using x.read_payload_append []

end Scalar

namespace ScalarKind

variable {bytes : Bytes}

theorem kind_read (kind : ScalarKind) (bytes : Bytes) : (kind.read bytes).kind = kind := by
  cases kind <;> rfl

theorem payload_read {kind : ScalarKind} (hkind : kind ≠ .bool) (h : kind.width ≤ bytes.length) :
    (kind.read bytes).payload = bytes.take kind.width := by
  cases kind with
  | bool => exact absurd rfl hkind
  | int =>
    simp only [read, Scalar.payload, UInt32.toUInt32_toInt32]
    exact word32_getWord32 h
  | long =>
    simp only [read, Scalar.payload, UInt64.toUInt64_toInt64]
    exact word64_getWord64 h
  | float | urid => exact word32_getWord32 h
  | double => exact word64_getWord64 h

theorem getWord32_eq_zero_iff (h : 4 ≤ bytes.length) :
    getWord32 bytes = 0 ↔ bytes.take 4 = word32 0 := by
  rw [← word32_getWord32 h]
  constructor
  · exact congrArg word32
  · intro heq
    simpa using congrArg getWord32 heq

/-- A boolean is written as 1 unless it was read from zeros. -/
theorem payload_read_bool (h : 4 ≤ bytes.length) :
    (read .bool bytes).payload = if bytes.take 4 = word32 0 then word32 0 else word32 1 := by
  by_cases hword : getWord32 bytes = 0
  · simp [read, Scalar.payload, hword, (getWord32_eq_zero_iff h).mp hword]
  · simp [read, Scalar.payload, hword, mt (getWord32_eq_zero_iff h).mpr hword]

theorem mem_all (kind : ScalarKind) : kind ∈ all := by
  cases kind <;> decide

end ScalarKind

namespace Vocabulary

variable {v : Vocabulary} {type : TypeId} {kind : ScalarKind} {value : Scalar} {bytes : Bytes}

theorem scalarKind?_eq_none_iff :
    v.scalarKind? type = none ↔ type = 0 ∨ ∀ kind, type ≠ v.scalarType kind := by
  by_cases hzero : type = 0
  · simp [scalarKind?, hzero]
  · rw [scalarKind?, if_neg hzero, List.find?_eq_none]
    simp [hzero, scalarType, ScalarKind.mem_all]

/-- The kind of an id is the first one that has it. -/
theorem scalarKind?_eq_some_iff :
    v.scalarKind? type = some kind ↔ type ≠ 0 ∧ type = v.scalarType kind ∧
      ∀ earlier ∈ ScalarKind.all.takeWhile (· ≠ kind), type ≠ v.scalarType earlier := by
  by_cases hzero : type = 0
  · simp [scalarKind?, hzero]
  rw [scalarKind?, if_neg hzero, List.find?_eq_some_iff_append]
  constructor
  · rintro ⟨hkind, before, after, hall, hbefore⟩
    have htype : type = v.scalarType kind := of_decide_eq_true hkind
    have hother : ∀ k ∈ before, type ≠ v.scalarType k := fun k hk heq => by
      simpa [scalarType, heq] using hbefore k hk
    -- The kind itself has the id, so it does not stand among those before it.
    have hne : ∀ k ∈ before, decide (k ≠ kind) = true := fun k hk =>
      decide_eq_true fun heq => hother k hk (heq ▸ htype)
    refine ⟨hzero, htype, ?_⟩
    rw [hall, List.takeWhile_append_of_pos hne, List.takeWhile_cons_of_neg (by simp),
      List.append_nil]
    exact hother
  · rintro ⟨_, htype, hearlier⟩
    refine ⟨decide_eq_true htype, ScalarKind.all.takeWhile (· ≠ kind),
      (ScalarKind.all.dropWhile (· ≠ kind)).tail, by cases kind <;> rfl, ?_⟩
    intro k hk
    simpa [scalarType] using hearlier k hk

theorem decode_of_scalarKind? (hkind : v.scalarKind? type = some kind)
    (h : kind.width ≤ bytes.length) : v.decode type bytes = .ok (kind.read bytes) := by
  rw [decode, hkind]
  exact if_neg (Nat.not_lt.mpr h)

theorem decode_eq_typeMismatch_iff :
    v.decode type bytes = .error .typeMismatch ↔ v.scalarKind? type = none := by
  unfold decode
  cases v.scalarKind? type with
  | none => simp
  | some kind =>
    simp only [reduceCtorEq, iff_false]
    split <;> simp

theorem decode_eq_truncatedBuffer_iff :
    v.decode type bytes = .error .truncatedBuffer ↔
      ∃ kind, v.scalarKind? type = some kind ∧ bytes.length < kind.width := by
  unfold decode
  cases v.scalarKind? type with
  | none => simp
  | some kind =>
    simp only [Option.some.injEq, exists_eq_left']
    split <;> simp_all

/-- What is read and written again keeps its bytes, if it is no boolean. -/
theorem encode_read (hkind : v.scalarKind? type = some kind) (h : kind.width ≤ bytes.length) :
    v.encode type (kind.read bytes) = .ok (if kind = .bool then
      (if bytes.take 4 = word32 0 then word32 0 else word32 1) else bytes.take kind.width) := by
  apply Op.encode_eq_ok_iff.mpr
  refine ⟨hkind.trans (congrArg some (kind.kind_read bytes).symm), ?_⟩
  split
  · rename_i hbool
    subst hbool
    exact (ScalarKind.payload_read_bool h).symm
  · rename_i hbool
    exact (ScalarKind.payload_read hbool h).symm

theorem decode_of_encode {code : Bytes} (h : v.encode type value = .ok code) (rest : Bytes) :
    v.decode type (code ++ rest) = .ok value := by
  obtain ⟨hkind, rfl⟩ := Op.encode_eq_ok_iff.mp h
  rw [decode_of_scalarKind? hkind, value.read_payload_append]
  rw [List.length_append, value.length_payload]
  exact Nat.le_add_right _ _

end Vocabulary

/-- By any vocabulary: a scalar has an encoding under the id of its kind only, of the width of
that kind, and decoding finds the scalar in front of whatever follows. Decoding fails only for
an id of no kind and for too few bytes, and what it finds is encoded by the very bytes it was
found in, or by 0 or 1 if it is a boolean. -/
theorem scalar_codec (v : Vocabulary) (type : TypeId) (value : Scalar) (bytes rest : Bytes) :
    (v.scalarKind? type = some value.kind →
      ∃ code, v.encode type value = .ok code ∧ code.length = value.kind.width ∧
        v.decode type (code ++ rest) = .ok value ∧
        ∀ other, v.encode type other = .ok code → other = value) ∧
    (v.scalarKind? type ≠ some value.kind → v.encode type value = .error .typeMismatch) ∧
    (v.decode type bytes = .error .typeMismatch ↔
      type = 0 ∨ ∀ kind, type ≠ v.scalarType kind) ∧
    (v.decode type bytes = .error .truncatedBuffer ↔
      ∃ kind, v.scalarKind? type = some kind ∧ bytes.length < kind.width) ∧
    (∀ kind, v.scalarKind? type = some kind → kind.width ≤ bytes.length →
      ∃ found code, v.decode type bytes = .ok found ∧ found.kind = kind ∧
        v.encode type found = .ok code ∧ (kind ≠ .bool → code = bytes.take kind.width) ∧
        (kind = .bool → code = if bytes.take 4 = word32 0 then word32 0 else word32 1)) ∧
    ∀ kind, v.scalarKind? type = some kind ↔ type ≠ 0 ∧ type = v.scalarType kind ∧
      ∀ earlier ∈ ScalarKind.all.takeWhile (· ≠ kind), type ≠ v.scalarType earlier := by
  refine ⟨?_, ?_, ?_, Vocabulary.decode_eq_truncatedBuffer_iff, ?_, ?_⟩
  · intro hkind
    have hcode : v.encode type value = .ok value.payload := Op.encode_eq_ok_iff.mpr ⟨hkind, rfl⟩
    refine ⟨_, hcode, value.length_payload, Vocabulary.decode_of_encode hcode rest, ?_⟩
    intro other hother
    have hsame := Vocabulary.decode_of_encode hother []
    rw [Vocabulary.decode_of_encode hcode] at hsame
    exact (Except.ok.inj hsame).symm
  · intro hkind
    exact if_neg hkind
  · rw [Vocabulary.decode_eq_typeMismatch_iff, Vocabulary.scalarKind?_eq_none_iff]
  · intro kind hkind hwidth
    refine ⟨_, _, Vocabulary.decode_of_scalarKind? hkind hwidth, kind.kind_read bytes,
      Vocabulary.encode_read hkind hwidth, ?_, ?_⟩
    · intro hbool
      exact if_neg hbool
    · intro hbool
      exact if_pos hbool
  · intro kind
    exact Vocabulary.scalarKind?_eq_some_iff

end AtomWire
