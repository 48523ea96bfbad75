import AtomWire.Bytes
import AtomWire.Host.Status

/-!
# Memory of the caller

Callers pass memory as an address with a length. Text is handed out in two calls: the
first may be given too little room and tells the length, the second then fits.
-/

namespace AtomWire.Host

set_option autoImplicit false

inductive Memory where
  /-- No address, whatever length comes with it. -/
  | null (length : Nat)
  | given (bytes : Bytes)

/-- The bytes of the memory; a missing address can only stand for none. -/
def Memory.bytes? : Memory → Option Bytes
  | null 0 => some []
  | null _ => none
  | given bytes => some bytes

/-- The outcome of asking for a text: the length if it is told, and the caller's room
after the call. -/
structure TextAnswer where
  status : Status
  length : Option Nat
  room : Option Bytes

/-- Copies a text and a zero byte into the room, if it is large enough. -/
def copyText (text : Bytes) (room : Option Bytes) : TextAnswer :=
  match room with
  | none => ⟨.bufferTooSmall, some text.length, none⟩
  | some bytes =>
    if bytes.length ≤ text.length then ⟨.bufferTooSmall, some text.length, room⟩
    else ⟨.ok, some text.length, some (overwrite bytes 0 (text ++ [0]))⟩

/-- The text before the first zero byte. -/
def untilZero (text : Bytes) : Bytes := text.takeWhile (· ≠ 0)

end AtomWire.Host
