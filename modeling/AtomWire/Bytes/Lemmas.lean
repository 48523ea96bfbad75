import Mathlib.Tactic.Ring
import AtomWire.Bytes

/-!
# Words read back

Writing the digits of a number and reading them gives the number modulo the power of 256
that the width allows, and every list of bytes is written by the number it holds. Slices
that follow each other make up one slice, and a slice of a slice is one of the whole.
-/

namespace AtomWire

set_option autoImplicit false

theorem ofLE_leBytes (width n : Nat) : ofLE (leBytes width n) = n % 256 ^ width := by
  induction width generalizing n with
  | zero => simp [leBytes, ofLE, Nat.mod_one]
  | succ width ih =>
    have hhead : (UInt8.ofNat n).toNat = n % 256 := UInt8.toNat_ofNat'
    rw [leBytes, ofLE, ih, hhead, Nat.pow_succ', Nat.mod_mul]

theorem leBytes_ofLE (bytes : Bytes) : leBytes bytes.length (ofLE bytes) = bytes := by
  induction bytes with
  | nil => rfl
  | cons b rest ih =>
    have hb : b.toNat < 256 := b.toNat_lt
    have hdiv : (b.toNat + 256 * ofLE rest) / 256 = ofLE rest := by omega
    have hhead : UInt8.ofNat (b.toNat + 256 * ofLE rest) = b := by
      apply UInt8.toNat_inj.mp
      rw [UInt8.toNat_ofNat']
      omega
    simp only [List.length_cons, leBytes, ofLE, hdiv, hhead, ih]

theorem ofLE_lt (bytes : Bytes) : ofLE bytes < 256 ^ bytes.length := by
  induction bytes with
  | nil => simp [ofLE]
  | cons b rest ih =>
    have hb : b.toNat < 256 := b.toNat_lt
    rw [ofLE, List.length_cons, Nat.pow_succ']
    omega

@[simp] theorem getWord32_word32_append (n : UInt32) (rest : Bytes) :
    getWord32 (word32 n ++ rest) = n := by
  have hn : n.toNat < 2 ^ 32 := n.toNat_lt
  rw [getWord32, List.take_left' (length_word32 n), word32, ofLE_leBytes,
    Nat.mod_eq_of_lt (by simpa using hn), UInt32.ofNat_toNat]

@[simp] theorem getWord64_word64_append (n : UInt64) (rest : Bytes) :
    getWord64 (word64 n ++ rest) = n := by
  have hn : n.toNat < 2 ^ 64 := n.toNat_lt
  rw [getWord64, List.take_left' (length_word64 n), word64, ofLE_leBytes,
    Nat.mod_eq_of_lt (by simpa using hn), UInt64.ofNat_toNat]

theorem leBytes_ofLE_mod (bytes : Bytes) {width : Nat} (h : width ≤ bytes.length) :
    leBytes width (ofLE (bytes.take width) % 256 ^ width) = bytes.take width := by
  have hlen : (bytes.take width).length = width := List.length_take_of_le h
  have hlt := ofLE_lt (bytes.take width)
  have hbytes := leBytes_ofLE (bytes.take width)
  rw [hlen] at hlt hbytes
  rw [Nat.mod_eq_of_lt hlt, hbytes]

theorem word32_getWord32 {bytes : Bytes} (h : 4 ≤ bytes.length) :
    word32 (getWord32 bytes) = bytes.take 4 := leBytes_ofLE_mod bytes h

theorem word64_getWord64 {bytes : Bytes} (h : 8 ≤ bytes.length) :
    word64 (getWord64 bytes) = bytes.take 8 := leBytes_ofLE_mod bytes h

@[simp] theorem getWord32_word32 (n : UInt32) : getWord32 (word32 n) = n := by
  simpa using getWord32_word32_append n []

@[simp] theorem getWord64_word64 (n : UInt64) : getWord64 (word64 n) = n := by
  simpa using getWord64_word64_append n []

theorem length_slice {bytes : Bytes} {start count : Nat} (h : start + count ≤ bytes.length) :
    (slice bytes start count).length = count := by
  simp only [slice, List.length_take, List.length_drop]
  omega

theorem slice_append (bytes : Bytes) (start m n : Nat) :
    slice bytes start m ++ slice bytes (start + m) n = slice bytes start (m + n) := by
  rw [slice, slice, slice, List.take_add, List.drop_drop]

theorem slice_slice (bytes : Bytes) (start : Nat) {size skip count : Nat}
    (h : skip + count ≤ size) :
    slice (slice bytes start size) skip count = slice bytes (start + skip) count := by
  rw [slice, slice, slice, List.drop_take, List.take_take, List.drop_drop,
    Nat.min_eq_left (by omega)]

theorem drop_slice (bytes : Bytes) (pos count skip : Nat) :
    (slice bytes pos count).drop skip = slice bytes (pos + skip) (count - skip) := by
  rw [slice, slice, List.drop_take, List.drop_drop]

theorem getWord32_slice (bytes : Bytes) (pos : Nat) {count : Nat} (h : 4 ≤ count) :
    getWord32 (slice bytes pos count) = getWord32 (slice bytes pos 4) := by
  simp only [getWord32, slice, List.take_take]
  rw [Nat.min_eq_left h, Nat.min_self]

theorem slice_one_eq_iff {bytes : Bytes} {pos : Nat} {x : UInt8} :
    slice bytes pos 1 = [x] ↔ bytes[pos]? = some x := by
  rw [slice, List.take_one, List.head?_drop]
  cases bytes[pos]? <;> simp

end AtomWire
