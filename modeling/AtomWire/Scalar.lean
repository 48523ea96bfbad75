import AtomWire.Error
import AtomWire.Ieee
import AtomWire.Vocabulary

/-!
# Scalar values

The six fixed-width kinds. `Scalar.payload` writes the little-endian bytes of a value and
`ScalarKind.read` reads them back; `encode` and `decode` guard the two by the kind that
the vocabulary gives to a type id. There is no numeric coercion between kinds.
-/

namespace AtomWire

set_option autoImplicit false

inductive ScalarKind where
  | int | long | float | double | bool | urid
deriving DecidableEq

inductive Scalar where
  | int (value : Int32)
  | long (value : Int64)
  | float (value : Binary32)
  | double (value : Binary64)
  | bool (value : Bool)
  | urid (id : TypeId)
deriving DecidableEq

namespace ScalarKind

/-- The kinds in the order in which a type id is compared with them. -/
def all : List ScalarKind := [int, long, float, double, bool, urid]

def term : ScalarKind → Term
  | int => .int
  | long => .long
  | float => .float
  | double => .double
  | bool => .bool
  | urid => .urid

def width : ScalarKind → Nat
  | long | double => 8
  | int | float | bool | urid => 4

/-- The value in the first `width` bytes. Any nonzero word is a true boolean. -/
def read : ScalarKind → Bytes → Scalar
  | int, bytes => .int (getWord32 bytes).toInt32
  | long, bytes => .long (getWord64 bytes).toInt64
  | float, bytes => .float ⟨getWord32 bytes⟩
  | double, bytes => .double ⟨getWord64 bytes⟩
  | bool, bytes => .bool (getWord32 bytes ≠ 0)
  | urid, bytes => .urid (getWord32 bytes)

end ScalarKind

namespace Scalar

def kind : Scalar → ScalarKind
  | int _ => .int
  | long _ => .long
  | float _ => .float
  | double _ => .double
  | bool _ => .bool
  | urid _ => .urid

/-- The bytes of a value. A boolean is the word 0 or 1. -/
def payload : Scalar → Bytes
  | int value => word32 value.toUInt32
  | long value => word64 value.toUInt64
  | float value => word32 value.bits
  | double value => word64 value.bits
  | bool value => word32 (if value then 1 else 0)
  | urid id => word32 id

theorem length_payload (s : Scalar) : s.payload.length = s.kind.width := by
  cases s <;> simp [payload, kind, ScalarKind.width]

end Scalar

namespace Vocabulary

/-- The kind whose id is `type`; the first one if several share it. -/
def scalarKind? (v : Vocabulary) (type : TypeId) : Option ScalarKind :=
  if type = 0 then none else ScalarKind.all.find? (fun k => type = v.id k.term)

def scalarType (v : Vocabulary) (kind : ScalarKind) : TypeId := v.id kind.term

/-- The bytes of a value, if `type` is the id of its kind. -/
def encode (v : Vocabulary) (type : TypeId) (value : Scalar) : Except WireError Bytes :=
  if v.scalarKind? type = some value.kind then .ok value.payload else .error .typeMismatch

/-- The value at the start of the bytes; further bytes are ignored. -/
def decode (v : Vocabulary) (type : TypeId) (bytes : Bytes) : Except WireError Scalar :=
  match v.scalarKind? type with
  | none => .error .typeMismatch
  | some kind => if bytes.length < kind.width then .error .truncatedBuffer else .ok (kind.read bytes)

end Vocabulary

end AtomWire
