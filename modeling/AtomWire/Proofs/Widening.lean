import AtomWire.Ieee
import Mathlib.Tactic.Ring

/-!
# Widening is exact

A word of a floating-point format stands for a number, whose magnitude is counted in the
smallest steps of the format. A single and the double it is widened to stand for the same
number, the infinite and the subnormal ones included.
-/

namespace AtomWire

set_option autoImplicit false

/-- What a word stands for. A finite number is so many of the smallest steps. -/
inductive Number where
  | finite (negative : Bool) (steps : Nat)
  | infinite (negative : Bool)
  | nan
deriving DecidableEq

namespace Number

/-- The number of a sign, an exponent and a fraction. The largest exponent is kept for what is
not finite; the smallest one has no hidden bit. -/
def ofFields (largest hidden sign exponent fraction : Nat) : Number :=
  if exponent = largest then if fraction = 0 then infinite (sign = 1) else nan
  else if exponent = 0 then finite (sign = 1) fraction
  else finite (sign = 1) ((fraction + hidden) * 2 ^ (exponent - 1))

variable {largest hidden sign exponent fraction : Nat}

theorem ofFields_zero (hlargest : 0 ≠ largest) :
    ofFields largest hidden sign 0 fraction = finite (sign = 1) fraction := by
  rw [ofFields, if_neg hlargest, if_pos rfl]

theorem ofFields_normal (hlargest : exponent ≠ largest) (hzero : exponent ≠ 0) :
    ofFields largest hidden sign exponent fraction =
      finite (sign = 1) ((fraction + hidden) * 2 ^ (exponent - 1)) := by
  rw [ofFields, if_neg hlargest, if_neg hzero]

/-- The same number in steps of which `2 ^ bits` make up one of the old. -/
def finer (bits : Nat) : Number → Number
  | finite negative steps => finite negative (steps * 2 ^ bits)
  | infinite negative => infinite negative
  | nan => nan

end Number

def Binary32.number (x : Binary32) : Number :=
  let n := x.bits.toNat
  .ofFields 0xff (2 ^ 23) (n / 2 ^ 31) (n / 2 ^ 23 % 2 ^ 8) (n % 2 ^ 23)

def Binary64.number (x : Binary64) : Number :=
  let n := x.bits.toNat
  .ofFields 0x7ff (2 ^ 52) (n / 2 ^ 63) (n / 2 ^ 52 % 2 ^ 11) (n % 2 ^ 52)

theorem Binary64.number_ofNat {sign exponent fraction : Nat} (hsign : sign < 2)
    (hexponent : exponent < 2 ^ 11) (hfraction : fraction < 2 ^ 52) :
    Binary64.number ⟨UInt64.ofNat ((sign <<< 63) + ((exponent <<< 52) + fraction))⟩ =
      .ofFields 0x7ff (2 ^ 52) sign exponent fraction := by
  simp only [Binary64.number, UInt64.toNat_ofNat', Nat.shiftLeft_eq]
  congr 1 <;> omega

namespace Number

/-- The topmost bit of the fraction goes when the rest of it is shifted up, and comes back as
the hidden bit. -/
theorem widen_subnormal {fraction : Nat} (sign : Nat) (hzero : fraction ≠ 0)
    (hfraction : fraction < 2 ^ 23) :
    let top := fraction.log2
    let shifted := (fraction - (1 <<< top)) <<< (52 - top)
    top + 874 < 2 ^ 11 ∧ shifted < 2 ^ 52 ∧
      ofFields 0x7ff (2 ^ 52) sign (top + 874) shifted =
        (ofFields 0xff (2 ^ 23) sign 0 fraction).finer 925 := by
  intro top shifted
  have htop : top < 23 := (Nat.log2_lt hzero).mpr hfraction
  have hle : 2 ^ top ≤ fraction := Nat.log2_self_le hzero
  have hlt : fraction < 2 ^ (top + 1) := Nat.lt_log2_self
  have hhidden : 2 ^ top * 2 ^ (52 - top) = 2 ^ 52 := by
    rw [← Nat.pow_add, Nat.add_sub_cancel' (by omega)]
  have hshifted : shifted = (fraction - 2 ^ top) * 2 ^ (52 - top) := by
    rw [← Nat.one_shiftLeft, ← Nat.shiftLeft_eq]
  have hsum : shifted + 2 ^ 52 = fraction * 2 ^ (52 - top) := by
    rw [hshifted, ← hhidden, ← Nat.add_mul, Nat.sub_add_cancel hle]
  refine ⟨by omega, ?_, ?_⟩
  · rw [hshifted, ← hhidden]
    exact Nat.mul_lt_mul_of_pos_right (by omega) (Nat.two_pow_pos _)
  · generalize hbits : 925 = bits
    have hpow : 52 - top + (top + 874 - 1) = bits := by omega
    rw [ofFields_normal (by omega) (by omega), hsum, Nat.mul_assoc, ← Nat.pow_add, hpow,
      ofFields_zero (by decide), finer]

theorem widen_normal {exponent fraction : Nat} (sign : Nat) (hlargest : exponent ≠ 0xff)
    (hzero : exponent ≠ 0) (hexponent : exponent < 2 ^ 8) :
    ofFields 0x7ff (2 ^ 52) sign (exponent + 896) (fraction <<< 29) =
      (ofFields 0xff (2 ^ 23) sign exponent fraction).finer 925 := by
  have hsum : fraction * 2 ^ 29 + 2 ^ 52 = (fraction + 2 ^ 23) * 2 ^ 29 := by omega
  generalize hbits : 925 = bits
  have hpow : 29 + (exponent + 896 - 1) = exponent - 1 + bits := by omega
  rw [ofFields_normal (by omega) (by omega), ofFields_normal hlargest hzero, finer,
    Nat.shiftLeft_eq, hsum, Nat.mul_assoc, Nat.mul_assoc, ← Nat.pow_add, ← Nat.pow_add, hpow]

/-- The quiet bit keeps the fraction of a NaN from being that of an infinite number. -/
theorem widen_nan {fraction : Nat} (sign : Nat) (hzero : fraction ≠ 0)
    (hfraction : fraction <<< 29 < 2 ^ 52) :
    let quiet := 1 <<< 51 ||| fraction <<< 29
    quiet < 2 ^ 52 ∧ ofFields 0x7ff (2 ^ 52) sign 0x7ff quiet =
      (ofFields 0xff (2 ^ 23) sign 0xff fraction).finer 925 := by
  intro quiet
  have hquiet : quiet ≠ 0 := fun h => absurd (Nat.or_eq_zero_iff.mp h).1 (by decide)
  refine ⟨Nat.or_lt_two_pow (by decide) hfraction, ?_⟩
  rw [ofFields, if_pos rfl, if_neg hquiet, ofFields, if_pos rfl, if_neg hzero, finer]

end Number

/-- A single and the double it is widened to are the same number: a step of the one is
2 ^ 925 steps of the other. -/
theorem Binary32.number_widen (x : Binary32) : x.widen.number = x.number.finer 925 := by
  have hsign : (x.bits >>> 31).toNat = x.bits.toNat / 2 ^ 31 := by
    simp [Nat.shiftRight_eq_div_pow]
  have hexponent : (x.bits >>> 23 &&& 0xff).toNat = x.bits.toNat / 2 ^ 23 % 2 ^ 8 := by
    rw [UInt32.toNat_and, UInt32.toNat_shiftRight]
    exact (Nat.and_two_pow_sub_one_eq_mod _ 8).trans (by simp [Nat.shiftRight_eq_div_pow])
  have hfraction : (x.bits &&& 0x7fffff).toNat = x.bits.toNat % 2 ^ 23 := by
    rw [UInt32.toNat_and]
    exact Nat.and_two_pow_sub_one_eq_mod _ 23
  have hone : x.bits.toNat / 2 ^ 31 < 2 := Nat.div_lt_of_lt_mul x.bits.toNat_lt
  have hbyte : x.bits.toNat / 2 ^ 23 % 2 ^ 8 < 2 ^ 8 := Nat.mod_lt _ (by decide)
  have hlow : x.bits.toNat % 2 ^ 23 < 2 ^ 23 := Nat.mod_lt _ (by decide)
  simp only [widen, number, hsign, hexponent, hfraction]
  generalize x.bits.toNat / 2 ^ 31 = sign at hone ⊢
  generalize x.bits.toNat / 2 ^ 23 % 2 ^ 8 = exponent at hbyte ⊢
  generalize x.bits.toNat % 2 ^ 23 = fraction at hlow ⊢
  have hshifted : fraction <<< 29 < 2 ^ 52 := by
    rw [Nat.shiftLeft_eq]
    omega
  split_ifs with hlargest hinfinite hsmallest hnull
  · have hinf := Binary64.number_ofNat hone (show 0x7ff < 2 ^ 11 by decide)
      (show 0 < 2 ^ 52 by decide)
    rw [Nat.add_zero] at hinf
    rw [hinf, hlargest, hinfinite]
    rfl
  · obtain ⟨hquiet, hnan⟩ := Number.widen_nan sign hinfinite hshifted
    rw [Nat.or_assoc, ← Nat.shiftLeft_add_eq_or_of_lt hquiet,
      Binary64.number_ofNat hone (by decide) hquiet, hnan, hlargest]
  · have hnil := Binary64.number_ofNat hone (show 0 < 2 ^ 11 by decide)
      (show 0 < 2 ^ 52 by decide)
    rw [Nat.zero_shiftLeft] at hnil
    generalize 925 = bits
    rw [hnil, hsmallest, hnull, Number.ofFields_zero (by decide), Number.ofFields_zero (by decide),
      Number.finer, Nat.zero_mul]
  · obtain ⟨htop, hrest, hnumber⟩ := Number.widen_subnormal sign hnull hlow
    rw [Binary64.number_ofNat hone htop hrest, hnumber, hsmallest]
  · rw [Binary64.number_ofNat hone (by omega) hshifted,
      Number.widen_normal sign hlargest hsmallest hbyte]

end AtomWire
