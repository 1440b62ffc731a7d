import MethodTrace.Decimal.Binary64

/-!
# A fixed number of decimal places

The exact binary value is rounded, ties to the even last place.
-/

namespace MethodTrace.Decimal

/-- The digits of `n`, filled up with zeros on the left to `width`. -/
def padded (width n : Nat) : String :=
  let s := toString n
  "".pushn '0' (width - s.length) ++ s

/-- Of a nonnegative finite double. -/
def fixed (places : Nat) (x : Binary64) : String :=
  let unit := Nat.pow 10 places
  let n := Binary64.roundEven (x.units * unit) Binary64.one
  toString (n / unit) ++ "." ++ padded places (n % unit)

end MethodTrace.Decimal
