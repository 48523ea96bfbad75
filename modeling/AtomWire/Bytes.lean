/-!
# Bytes and little-endian words

Every word on the wire is little-endian, so a word of `width` bytes is the list of its
base-256 digits, least significant first. `leBytes` writes those digits and `ofLE` reads
them back; the 32- and 64-bit words are the two widths in use.
-/

namespace AtomWire

set_option autoImplicit false

abbrev Bytes := List UInt8

/-- The `width` low base-256 digits of `n`, least significant first. -/
def leBytes : Nat → Nat → Bytes
  | 0, _ => []
  | width + 1, n => UInt8.ofNat n :: leBytes width (n / 256)

/-- The number whose base-256 digits, least significant first, are the given bytes. -/
def ofLE : Bytes → Nat
  | [] => 0
  | b :: rest => b.toNat + 256 * ofLE rest

@[simp] theorem length_leBytes (width n : Nat) : (leBytes width n).length = width := by
  induction width generalizing n with
  | zero => rfl
  | succ width ih => simp [leBytes, ih]

def word32 (n : UInt32) : Bytes := leBytes 4 n.toNat

def word64 (n : UInt64) : Bytes := leBytes 8 n.toNat

/-- The word held by the first four bytes. -/
def getWord32 (bytes : Bytes) : UInt32 := UInt32.ofNat (ofLE (bytes.take 4))

/-- The word held by the first eight bytes. -/
def getWord64 (bytes : Bytes) : UInt64 := UInt64.ofNat (ofLE (bytes.take 8))

@[simp] theorem length_word32 (n : UInt32) : (word32 n).length = 4 := length_leBytes 4 _

@[simp] theorem length_word64 (n : UInt64) : (word64 n).length = 8 := length_leBytes 8 _

/-- The `count` bytes from position `start`, or as many of them as there are. -/
def slice (bytes : Bytes) (start count : Nat) : Bytes := (bytes.drop start).take count

/-- The bytes with those from position `start` replaced by `patch`. -/
def overwrite (bytes : Bytes) (start : Nat) (patch : Bytes) : Bytes :=
  bytes.take start ++ patch ++ bytes.drop (start + patch.length)

def utf8 (text : String) : Bytes := text.toUTF8.data.toList

end AtomWire
