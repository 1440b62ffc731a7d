import MethodTrace.Decimal.Binary64

/-!
# The shortest decimal that reads back

The reals that round to a finite double form an interval around it. `shortest` is the decimal of
the fewest digits in that interval, of two the nearer one: the grids of 1 to 17 digits are tried in
turn, and on a grid only the double's two neighbours can be the answer. `write` gives it as text,
positional when the first digit stands between 10⁻⁵ and 10¹⁵.
-/

namespace MethodTrace.Decimal

/-- `digits * 10 ^ exponent`, where `digits` does not end in zero. -/
structure Short where
  digits : Nat
  exponent : Int

/-- Numerator and denominator of `n * 10 ^ e`. -/
def shifted (n : Nat) (e : Int) : Nat × Nat :=
  if 0 ≤ e then (n * Nat.pow 10 e.toNat, 1) else (n, Nat.pow 10 (-e).toNat)

/-- Whether `c * 10 ^ p` rounds to `x`, a positive finite double. Both sides are taken four times,
so that the ends of the interval are whole. -/
def readsBack (x : Binary64) (c : Nat) (p : Int) : Bool :=
  let (n, d) := shifted (4 * c * Binary64.one) p
  let step := 1 <<< x.scale
  let low := 4 * x.units - if x.significand = Binary64.normal ∧ 0 < x.scale then step else 2 * step
  let high := 4 * x.units + 2 * step
  if x.significand % 2 = 0 then low * d ≤ n ∧ n ≤ high * d else low * d < n ∧ n < high * d

/-- The largest `e` with `10 ^ e ≤ n / d`, found from `e = start` downwards. -/
def exponentBelow (n d : Nat) : Nat → Int → Int
  | 0, e => e
  | fuel + 1, e =>
    let (p, q) := shifted 1 e
    if p * d ≤ n * q then e else exponentBelow n d fuel (e - 1)

/-- The power of ten of the first digit of a positive finite double. -/
def leading (x : Binary64) : Int :=
  let start : Int := ((Nat.log2 x.units : Int) - 1074) * 30103 / 100000 + 1
  exponentBelow x.units Binary64.one 4 start

/-- The nearer of the two neighbours `c` and `c + 1` on the grid of `10 ^ p` that read back. -/
def onGrid (x : Binary64) (p : Int) : Option Nat :=
  let (n, d) := shifted x.units (-p)
  let c := n / (d * Binary64.one)
  let nearest := Binary64.roundEven n (d * Binary64.one)
  let farther := if nearest = c then c + 1 else c
  [nearest, farther].find? (readsBack x · p)

/-- Moves zeros at the end of `n` into the exponent. -/
def strip : Nat → Nat → Int → Short
  | 0, n, e => ⟨n, e⟩
  | fuel + 1, n, e => if n % 10 = 0 then strip fuel (n / 10) (e + 1) else ⟨n, e⟩

/-- Of a positive finite double. -/
def shortest (x : Binary64) : Short :=
  let e := leading x
  let grids := (List.range 17).map fun (i : Nat) => e - (i : Int)
  match grids.findSome? (fun p => (onGrid x p).map (·, p)) with
  | some (n, p) => strip 17 n p
  | none => ⟨0, 0⟩

def zeros (n : Nat) : String := "".pushn '0' n

/-- `digits` with the point after the first one, unless there is only one. -/
def pointed (digits : String) : String :=
  if digits.length ≤ 1 then digits else (digits.take 1).toString ++ "." ++ (digits.drop 1).toString

/-- A positive finite double. -/
def writePositive (x : Binary64) : String :=
  let s := shortest x
  let digits := toString s.digits
  let n : Int := digits.length
  let first := s.exponent + n - 1
  if first < -5 then pointed digits ++ "e-" ++ toString (-first)
  else if first < 0 then "0." ++ zeros (-first - 1).toNat ++ digits
  else if 15 < first then pointed digits ++ "e+" ++ toString first
  else if s.exponent < 0 then
    (digits.take (first + 1).toNat).toString ++ "." ++ (digits.drop (first + 1).toNat).toString
  else digits ++ zeros s.exponent.toNat ++ ".0"

/-- A finite double. -/
def write (x : Binary64) : String :=
  (if x.negative then "-" else "") ++ if x.magnitude = 0 then "0.0" else writePositive x

end MethodTrace.Decimal
