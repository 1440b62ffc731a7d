import MethodTrace.Decimal.Binary64

/-!
# From decimal to double

A decimal is read in two roundings: its significand becomes a double, which is then multiplied or
divided by the double nearest to a power of ten. Powers beyond 10³⁰⁸ are no doubles: such a product
is out of range, such a quotient is taken in two divisions.
-/

namespace MethodTrace.Decimal

def powerOfTen (e : Nat) : Binary64 := Binary64.ofNat (Nat.pow 10 e)

/-- `significand * 10 ^ exponent`, unless that is out of range. -/
def ofScientific (significand : Nat) (exponent : Int) : Option Binary64 :=
  let x := Binary64.ofNat significand
  if significand = 0 then some x
  else if 308 < exponent then none
  else if 0 ≤ exponent then
    let y := x.mul (powerOfTen exponent.toNat)
    if y.isFinite then some y else none
  else if -308 ≤ exponent then some (x.div (powerOfTen (-exponent).toNat))
  else if -616 ≤ exponent then
    some ((x.div (powerOfTen 308)).div (powerOfTen (-exponent - 308).toNat))
  else some ⟨0⟩

end MethodTrace.Decimal
