/-!
# Doubles as bit patterns

A double is held as its 64 bits, so that every pattern, NaN payloads and the sign of zero included,
survives. `ofRatio` rounds an exact quotient to the nearest double, ties to the even one; products
and quotients of doubles go through it.
-/

namespace MethodTrace

structure Binary64 where
  bits : UInt64
deriving DecidableEq

namespace Binary64

/-- The bit of the sign. -/
def signBit : UInt64 := 0x8000000000000000

/-- Significands that leave no bit unused start here, and so does the exponent in the bits. -/
def normal : Nat := 0x10000000000000

def negative (x : Binary64) : Bool := signBit ≤ x.bits

/-- The bits without the sign. -/
def magnitude (x : Binary64) : Nat := x.bits.toNat % signBit.toNat

/-- The bits of positive infinity; the patterns above it are no numbers. -/
def infinity : Nat := 0x7ff * normal

def isFinite (x : Binary64) : Bool := x.magnitude < infinity

/-- The distance of the double from its neighbour away from zero is `2 ^ (scale - 1074)`. -/
def scale (x : Binary64) : Nat := x.magnitude / normal - 1

/-- A finite double has the absolute value `significand * 2 ^ (scale - 1074)`. -/
def significand (x : Binary64) : Nat :=
  if x.magnitude < normal then x.magnitude else x.magnitude % normal + normal

/-- The absolute value of a finite double, in units of the smallest positive double. -/
def units (x : Binary64) : Nat := x.significand <<< x.scale

/-- How many of the smallest positive double make one. -/
def one : Nat := 1 <<< 1074

def neg (x : Binary64) : Binary64 := ⟨x.bits + signBit⟩

/-- The integer nearest to `n / d`, the even one of two. -/
def roundEven (n d : Nat) : Nat :=
  let q := n / d
  let r := n % d
  if 2 * r < d ∨ (2 * r = d ∧ q % 2 = 0) then q else q + 1

/-- The double nearest to `n / d`; infinity if that is out of range. -/
def ofRatio (n d : Nat) : Binary64 :=
  let scale := Nat.log2 (n * one / d) - 52
  let bits := scale * normal + roundEven (n * one) (d <<< scale)
  ⟨(min bits infinity).toUInt64⟩

def ofNat (n : Nat) : Binary64 := ofRatio n 1

/-- Of nonnegative finite doubles. -/
def mul (x y : Binary64) : Binary64 := ofRatio (x.units * y.units) (one * one)

/-- Of nonnegative finite doubles, the divisor positive. -/
def div (x y : Binary64) : Binary64 := ofRatio x.units y.units

end Binary64

end MethodTrace
