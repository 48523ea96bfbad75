import AtomWire.Ieee
import AtomWire.Vocabulary

/-!
# Time stamps

The events of a sequence carry eight-byte stamps, counted in audio frames or in beats.
-/

namespace AtomWire

set_option autoImplicit false

inductive TimeUnit where
  | frames | beats
deriving DecidableEq

inductive Stamp where
  | frames (count : Int64)
  | beats (position : Binary64)
deriving DecidableEq

def TimeUnit.term : TimeUnit → Term
  | .frames => .frame
  | .beats => .beat

def TimeUnit.read : TimeUnit → Bytes → Stamp
  | .frames, bytes => .frames (getWord64 bytes).toInt64
  | .beats, bytes => .beats ⟨getWord64 bytes⟩

namespace Stamp

def unit : Stamp → TimeUnit
  | frames _ => .frames
  | beats _ => .beats

def payload : Stamp → Bytes
  | frames count => word64 count.toUInt64
  | beats position => word64 position.bits

@[simp] theorem length_payload (s : Stamp) : s.payload.length = 8 := by
  cases s <;> simp [payload]

/-- Strictly earlier. Stamps of different units are unordered. -/
def before : Stamp → Stamp → Bool
  | frames m, frames n => m < n
  | beats x, beats y => x.lt y
  | _, _ => false

end Stamp

end AtomWire
