/-!
# Floating-point words

Single and double precision numbers are kept as their bit patterns, so that every NaN
payload survives. `Binary64.lt` is the IEEE order (a NaN is below nothing and above
nothing, the two zeros are equal); `widen` is exact and `narrow` rounds to the nearest
single, ties to the even one.
-/

namespace AtomWire

set_option autoImplicit false

structure Binary32 where
  bits : UInt32
deriving DecidableEq

structure Binary64 where
  bits : UInt64
deriving DecidableEq

namespace Binary64

def magnitude (x : Binary64) : UInt64 := x.bits &&& 0x7fffffffffffffff

def isNegative (x : Binary64) : Bool := 0x8000000000000000 ≤ x.bits

def isNaN (x : Binary64) : Bool := 0x7ff0000000000000 < x.magnitude

/-- Numbers other than NaN are ordered as these integers. -/
def key (x : Binary64) : Int :=
  if x.isNegative then -(x.magnitude.toNat : Int) else x.magnitude.toNat

def lt (x y : Binary64) : Bool := !x.isNaN && !y.isNaN && decide (x.key < y.key)

end Binary64

/-- `m / d` rounded to the nearest integer, ties to the even one. -/
def divNearestEven (m d : Nat) : Nat :=
  if 2 * (m % d) < d ∨ (2 * (m % d) = d ∧ m / d % 2 = 0) then m / d else m / d + 1

/-- The double of the same value; a NaN becomes quiet and keeps its payload. -/
def Binary32.widen (x : Binary32) : Binary64 :=
  let sign := (x.bits >>> 31).toNat
  let exponent := (x.bits >>> 23 &&& 0xff).toNat
  let fraction := (x.bits &&& 0x7fffff).toNat
  let magnitude :=
    if exponent = 0xff then
      if fraction = 0 then 0x7ff <<< 52 else (0x7ff <<< 52) ||| (1 <<< 51) ||| (fraction <<< 29)
    else if exponent = 0 then
      if fraction = 0 then 0
      else
        let top := fraction.log2
        ((top + 874) <<< 52) + ((fraction - (1 <<< top)) <<< (52 - top))
    else ((exponent + 896) <<< 52) + (fraction <<< 29)
  ⟨UInt64.ofNat ((sign <<< 63) + magnitude)⟩

/-- The nearest single; what is too large becomes infinite, a NaN becomes quiet. -/
def Binary64.narrow (x : Binary64) : Binary32 :=
  let sign := (x.bits >>> 63).toNat
  let exponent := (x.bits >>> 52 &&& 0x7ff).toNat
  let fraction := (x.bits &&& 0xfffffffffffff).toNat
  let magnitude :=
    if exponent = 0x7ff then
      if fraction = 0 then 0xff <<< 23 else (0xff <<< 23) ||| (1 <<< 22) ||| (fraction >>> 29)
    else
      let significand := if exponent = 0 then fraction else fraction + (1 <<< 52)
      let rounded := divNearestEven significand (1 <<< (29 + (897 - exponent)))
      min (((exponent - 897) <<< 23) + rounded) (0xff <<< 23)
  ⟨UInt32.ofNat ((sign <<< 31) + magnitude)⟩

end AtomWire
