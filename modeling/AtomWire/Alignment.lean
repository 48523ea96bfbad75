import AtomWire.Bytes

/-!
# Alignment to eight bytes

Every atom header starts at a multiple of eight bytes. `alignUp`, `paddingFor` and
`paddedSize` compute on 64-bit words and wrap around; `padding` counts the same gap in
natural numbers and serves the layout of buffers, whose sizes never reach the wrap.
-/

namespace AtomWire

set_option autoImplicit false

/-- Byte length of an atom header: the type and the body size, one 32-bit word each. -/
def headerSize : Nat := 8

def atomAlignment : UInt64 := 8

/-- `size` rounded up to a multiple of `alignment`, a power of two, modulo `2 ^ 64`. -/
def alignUp (size alignment : UInt64) : UInt64 :=
  (size + alignment - 1) &&& ~~~(alignment - 1)

/-- The number of padding bytes after a body of `size` bytes. -/
def paddingFor (size : UInt64) : UInt64 := alignUp size atomAlignment - size

/-- The bytes taken by an atom with a body of `size` bytes: header, body and padding. -/
def paddedSize (size : UInt64) : UInt64 := 8 + alignUp size atomAlignment

/-- The distance from `size` to the next multiple of eight. -/
def padding (size : Nat) : Nat := (8 - size % 8) % 8

theorem padding_lt (size : Nat) : padding size < 8 := Nat.mod_lt _ (by decide)

theorem add_padding_mod (size : Nat) : (size + padding size) % 8 = 0 := by
  unfold padding
  omega

end AtomWire
