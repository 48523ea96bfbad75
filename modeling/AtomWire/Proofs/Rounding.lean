import Mathlib.Algebra.Order.Floor.Div
import Mathlib.Order.Bounds.Basic
import Mathlib.Tactic.Ring
import AtomWire.Alignment

/-!
# Rounding up on words

`alignUp` adds to a word and clears its low bits. In natural numbers it finds the least
multiple of the alignment that is not below the size, and a multiple of 2^64 there is a
wrap to zero. Sizes that a header can announce stay far below the wrap, so that `padding`
counts the bytes between a body and the next atom.
-/

namespace AtomWire

set_option autoImplicit false

section Multiples

variable {n a : Nat}

theorem isLeast_mul_ceilDiv (ha : 0 < a) :
    IsLeast {m : Nat | a ∣ m ∧ n ≤ m} (a * (n ⌈/⌉ a)) := by
  refine ⟨⟨Nat.dvd_mul_right _ _, le_smul_ceilDiv ha⟩, ?_⟩
  rintro _ ⟨⟨q, rfl⟩, hle⟩
  exact Nat.mul_le_mul_left a ((ceilDiv_le_iff_le_mul ha).mpr hle)

theorem mul_ceilDiv_lt (ha : 0 < a) : a * (n ⌈/⌉ a) < n + a := by
  have hle : a * ((n + a - 1) / a) ≤ n + a - 1 := Nat.mul_div_le _ _
  rw [Nat.ceilDiv_eq_add_pred_div]
  omega

theorem mul_ceilDiv_of_dvd (ha : 0 < a) (h : a ∣ n) : a * (n ⌈/⌉ a) = n :=
  (isLeast_mul_ceilDiv ha).unique ⟨⟨h, Nat.le_refl n⟩, fun _ hm => hm.2⟩

/-- Rounding up reaches a multiple exactly from the sizes less than one step before it. -/
theorem mul_ceilDiv_eq_iff {m : Nat} (ha : 0 < a) (hm : a ∣ m) (hn : n ≤ m) :
    a * (n ⌈/⌉ a) = m ↔ m < n + a := by
  constructor
  · rintro rfl
    exact mul_ceilDiv_lt ha
  · intro hlt
    have hup : a ∣ a * (n ⌈/⌉ a) := Nat.dvd_mul_right _ _
    have hge : n ≤ a * (n ⌈/⌉ a) := (isLeast_mul_ceilDiv ha).1.2
    have hle : a * (n ⌈/⌉ a) ≤ m := (isLeast_mul_ceilDiv ha).2 ⟨hm, hn⟩
    have hgap : m - a * (n ⌈/⌉ a) = 0 := by
      apply Nat.eq_zero_of_dvd_of_lt (Nat.dvd_sub hm hup)
      omega
    omega

end Multiples

section Alignment

variable {alignment : UInt64} {k : Nat}

theorem exponent_lt (h : alignment.toNat = 2 ^ k) : k < 64 := by
  have hlt : alignment.toNat < 2 ^ 64 := alignment.toNat_lt
  rw [h] at hlt
  exact (Nat.pow_lt_pow_iff_right (by decide)).mp hlt

theorem two_pow_mul_rest (h : alignment.toNat = 2 ^ k) : 2 ^ k * 2 ^ (64 - k) = 2 ^ 64 := by
  have hk := exponent_lt h
  rw [← Nat.pow_add, Nat.add_sub_cancel' (by omega)]

theorem toNat_predecessor (h : alignment.toNat = 2 ^ k) : (alignment - 1).toNat = 2 ^ k - 1 := by
  have hpos : 0 < 2 ^ k := Nat.two_pow_pos k
  have hone : (1 : UInt64) ≤ alignment := UInt64.le_iff_toNat_le.mpr (by rw [h]; exact hpos)
  rw [UInt64.toNat_sub_of_le _ _ hone, h]
  rfl

/-- The mask of all but the `k` lowest bits rounds down. -/
theorem toNat_clear (h : alignment.toNat = 2 ^ k) (x : UInt64) :
    (x &&& ~~~(alignment - 1)).toNat = 2 ^ k * (x.toNat / 2 ^ k) := by
  have hk := exponent_lt h
  have hx : x.toNat < 2 ^ 64 := x.toNat_lt
  have hmask : (~~~(alignment - 1)).toNat = 2 ^ k * (2 ^ (64 - k) - 1) := by
    have hpos : 0 < 2 ^ k := Nat.two_pow_pos k
    rw [UInt64.toNat_not, toNat_predecessor h, Nat.mul_sub, two_pow_mul_rest h, UInt64.size]
    omega
  rw [UInt64.toNat_and, hmask]
  apply Nat.eq_of_testBit_eq
  intro i
  rw [Nat.testBit_and, Nat.testBit_two_pow_mul, Nat.testBit_two_pow_mul,
    Nat.testBit_two_pow_sub_one, Nat.testBit_div_two_pow]
  by_cases hlow : k ≤ i
  · by_cases hhigh : i < 64
    · simp [hlow, show i - k < 64 - k by omega, show i - k + k = i by omega]
    · have hzero : x.toNat.testBit i = false :=
        Nat.testBit_lt_two_pow (Nat.lt_of_lt_of_le hx (Nat.pow_le_pow_right (by decide) (by omega)))
      simp [hlow, hzero, show i - k + k = i by omega]
  · simp [hlow]

/-- The rounding in natural numbers, of which a word keeps the low 64 bits. -/
theorem toNat_alignUp (h : alignment.toNat = 2 ^ k) (size : UInt64) :
    (alignUp size alignment).toNat = 2 ^ k * (size.toNat ⌈/⌉ 2 ^ k) % 2 ^ 64 := by
  have hpos : 0 < 2 ^ k := Nat.two_pow_pos k
  have hsum : (size + alignment - 1).toNat = (size.toNat + 2 ^ k - 1) % 2 ^ 64 := by
    have hassoc : size + alignment - 1 = size + (alignment - 1) := by
      rw [UInt64.sub_eq_add_neg, UInt64.sub_eq_add_neg, UInt64.add_assoc]
    rw [hassoc, UInt64.toNat_add, toNat_predecessor h, ← Nat.add_sub_assoc hpos]
  rw [alignUp, toNat_clear h, hsum, Nat.ceilDiv_eq_add_pred_div, ← two_pow_mul_rest h,
    Nat.mod_mul_right_div_self, Nat.mul_mod_mul_left]

theorem two_pow_dvd_word (h : alignment.toNat = 2 ^ k) : 2 ^ k ∣ 2 ^ 64 :=
  Nat.pow_dvd_pow 2 (Nat.le_of_lt (exponent_lt h))

theorem alignUp_eq_zero_iff (h : alignment.toNat = 2 ^ k) (size : UInt64) :
    alignUp size alignment = 0 ↔ size = 0 ∨ 2 ^ 64 - 2 ^ k < size.toNat := by
  have hpos : 0 < 2 ^ k := Nat.two_pow_pos k
  have hsize : size.toNat < 2 ^ 64 := size.toNat_lt
  have hle : 2 ^ k * (size.toNat ⌈/⌉ 2 ^ k) ≤ 2 ^ 64 :=
    (isLeast_mul_ceilDiv hpos).2 ⟨two_pow_dvd_word h, Nat.le_of_lt hsize⟩
  have hge : size.toNat ≤ 2 ^ k * (size.toNat ⌈/⌉ 2 ^ k) := (isLeast_mul_ceilDiv hpos).1.2
  have hzero : size = 0 ↔ 2 ^ k * (size.toNat ⌈/⌉ 2 ^ k) = 0 := by
    rw [← UInt64.toNat_inj]
    constructor
    · intro heq
      rw [mul_ceilDiv_of_dvd hpos (by rw [heq]; exact Nat.dvd_zero _), heq]
      rfl
    · intro heq
      exact Nat.le_zero.mp (heq ▸ hge)
  have hwrap := mul_ceilDiv_eq_iff hpos (two_pow_dvd_word h) (Nat.le_of_lt hsize)
  have hlow : 2 ^ k ≤ 2 ^ 64 := Nat.le_of_dvd (by decide) (two_pow_dvd_word h)
  rw [← UInt64.toNat_inj, toNat_alignUp h, hzero, UInt64.toNat_zero]
  -- Up to 2^64 a number is zero as a word only at both ends.
  omega

/-- Away from the wrap, rounding up is the rounding of natural numbers. -/
theorem toNat_alignUp_of_le (h : alignment.toNat = 2 ^ k) (size : UInt64)
    (hle : size.toNat ≤ 2 ^ 64 - 2 ^ k) :
    (alignUp size alignment).toNat = 2 ^ k * (size.toNat ⌈/⌉ 2 ^ k) := by
  have hpos : 0 < 2 ^ k := Nat.two_pow_pos k
  have hlow : 2 ^ k ≤ 2 ^ 64 := Nat.le_of_dvd (by decide) (two_pow_dvd_word h)
  have hlt := mul_ceilDiv_lt (n := size.toNat) hpos
  rw [toNat_alignUp h, Nat.mod_eq_of_lt (by omega)]

theorem alignUp_of_dvd (h : alignment.toNat = 2 ^ k) {size : UInt64} (hdvd : 2 ^ k ∣ size.toNat) :
    alignUp size alignment = size := by
  rw [← UInt64.toNat_inj, toNat_alignUp h, mul_ceilDiv_of_dvd (Nat.two_pow_pos k) hdvd,
    Nat.mod_eq_of_lt size.toNat_lt]

theorem dvd_toNat_alignUp (h : alignment.toNat = 2 ^ k) (size : UInt64) :
    2 ^ k ∣ (alignUp size alignment).toNat := by
  rw [toNat_alignUp h]
  exact (Nat.dvd_mod_iff (two_pow_dvd_word h)).mpr (Nat.dvd_mul_right _ _)

end Alignment

/-- Below the wrap the words count what `padding` counts. -/
theorem toNat_alignUp_eight (size : UInt64) (h : size.toNat ≤ 2 ^ 64 - 8) :
    (alignUp size atomAlignment).toNat = size.toNat + padding size.toNat := by
  have height : atomAlignment.toNat = 2 ^ 3 := rfl
  rw [toNat_alignUp_of_le height size h, Nat.ceilDiv_eq_add_pred_div]
  unfold padding
  omega

theorem toNat_paddingFor {size : UInt64} (h : size.toNat ≤ 2 ^ 64 - 8) :
    (paddingFor size).toNat = padding size.toNat := by
  have hup := toNat_alignUp_eight size h
  have hle : size ≤ alignUp size atomAlignment := UInt64.le_iff_toNat_le.mpr (by omega)
  rw [paddingFor, UInt64.toNat_sub_of_le _ _ hle]
  omega

theorem toNat_paddedSize {size : UInt64} (h : size.toNat ≤ 2 ^ 64 - 24) :
    (paddedSize size).toNat = 8 + size.toNat + padding size.toNat := by
  have hup := toNat_alignUp_eight size (by omega)
  have hlt := padding_lt size.toNat
  have height : (8 : UInt64).toNat = 8 := rfl
  rw [paddedSize, UInt64.toNat_add, hup, height]
  omega

theorem toNat_add_alignUp {m n : UInt64} (hm : 8 ∣ m.toNat)
    (hsum : m.toNat + n.toNat ≤ 2 ^ 64 - 8) :
    (m + alignUp n atomAlignment).toNat = m.toNat + n.toNat + padding n.toNat := by
  have hup := toNat_alignUp_eight n (by omega)
  have hmod := add_padding_mod n.toNat
  have hlt := padding_lt n.toNat
  rw [UInt64.toNat_add, hup]
  omega

theorem alignUp_add {m n : UInt64} (hm : 8 ∣ m.toNat) (hsum : m.toNat + n.toNat ≤ 2 ^ 64 - 8) :
    alignUp (m + n) atomAlignment = m + alignUp n atomAlignment := by
  have hadd : (m + n).toNat = m.toNat + n.toNat := by
    rw [UInt64.toNat_add]
    omega
  rw [← UInt64.toNat_inj, toNat_add_alignUp hm hsum, toNat_alignUp_eight (m + n) (by omega), hadd]
  unfold padding
  omega

/-- Rounding up to a power of two gives the least multiple that is not below the size, modulo
2^64. Only the size zero and the sizes in the last step before 2^64 give zero. The padding of
a body that a header can announce is less than eight bytes and makes its atom fill whole
steps of eight, and what stands a multiple of eight farther on is rounded alike. -/
theorem alignUp_exact (size alignment : UInt64) (k : Nat) (h : alignment.toNat = 2 ^ k) :
    let up := alignUp size alignment
    (∃ least, IsLeast {m : Nat | 2 ^ k ∣ m ∧ size.toNat ≤ m} least ∧
      up.toNat = least % 2 ^ 64) ∧
    (up = 0 ↔ size = 0 ∨ 2 ^ 64 - 2 ^ k < size.toNat) ∧
    (¬(size = 0 ∨ 2 ^ 64 - 2 ^ k < size.toNat) →
      size ≤ up ∧ up.toNat < size.toNat + 2 ^ k) ∧
    alignUp up alignment = up ∧
    (∀ body : UInt64, body.toNat < 2 ^ 32 →
      (paddingFor body).toNat ≤ 7 ∧
      ((paddingFor body).toNat : Int) = -(body.toNat : Int) % 8 ∧
      (paddedSize body).toNat = 8 + body.toNat + (paddingFor body).toNat ∧
      8 ∣ (paddedSize body).toNat) ∧
    ∀ m n : UInt64, 8 ∣ m.toNat → m.toNat + n.toNat ≤ 2 ^ 64 - 8 →
      alignUp (m + n) atomAlignment = m + alignUp n atomAlignment ∧
      (m + alignUp n atomAlignment).toNat = m.toNat + (alignUp n atomAlignment).toNat := by
  intro up
  have hpos : 0 < 2 ^ k := Nat.two_pow_pos k
  refine ⟨⟨_, isLeast_mul_ceilDiv hpos, toNat_alignUp h size⟩, alignUp_eq_zero_iff h size, ?_,
    alignUp_of_dvd h (dvd_toNat_alignUp h size), ?_, ?_⟩
  · intro hinner
    have hup : up.toNat = _ := toNat_alignUp_of_le h size (by omega)
    rw [UInt64.le_iff_toNat_le, hup]
    exact ⟨(isLeast_mul_ceilDiv hpos).1.2, mul_ceilDiv_lt hpos⟩
  · intro body hbody
    have hlt := padding_lt body.toNat
    have hmod := add_padding_mod body.toNat
    rw [toNat_paddingFor (by omega), toNat_paddedSize (by omega)]
    omega
  · intro m n hm hsum
    refine ⟨alignUp_add hm hsum, ?_⟩
    rw [toNat_add_alignUp hm hsum, toNat_alignUp_eight n (by omega), Nat.add_assoc]

/-- Seven bytes before the end of all words the next multiple of eight is zero, the largest
body has one byte of padding, and the last multiple of eight that is not zero can be reached
from afar. -/
theorem alignUp_exact_wrap :
    let size : UInt64 := 0xfffffffffffffff9
    let body : UInt64 := 0xffffffff
    let m : UInt64 := 0xfffffffffffffff0
    atomAlignment.toNat = 2 ^ 3 ∧ alignUp size atomAlignment = 0 ∧
      body.toNat < 2 ^ 32 ∧ (paddedSize body).toNat = 8 + body.toNat + 1 ∧
      alignUp (m + 5) atomAlignment = m + 8 := by
  intro size body m
  have height : atomAlignment.toNat = 2 ^ 3 := rfl
  obtain ⟨_, hzero, _, _, hpadded, hadd⟩ := alignUp_exact size atomAlignment 3 height
  have hbody : body.toNat < 2 ^ 32 := by decide
  exact ⟨height, hzero.mpr (Or.inr (by decide)), hbody,
    (hpadded body hbody).2.2.1.trans (by decide),
    (hadd m 5 (by decide) (by decide)).1⟩

end AtomWire
