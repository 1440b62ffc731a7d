import MethodTrace.Decimal.Scientific

/-!
# Words of JSON texts

Blanks, strings, numbers and fixed words at the start of a text. A reader gives what it read and the
rest of the text, or nothing if the text does not go on as the grammar wants.
-/

namespace MethodTrace.Json

def isBlank (c : Char) : Bool := c = ' ' || c = '\n' || c = '\t' || c = '\r'

def skipBlanks (cs : List Char) : List Char := cs.dropWhile isBlank

/-- The text after `word`. -/
def readWord : List Char → List Char → Option (List Char)
  | [], cs => some cs
  | w :: ws, c :: cs => if w = c then readWord ws cs else none
  | _ :: _, [] => none

/-! ### Strings -/

def hexValue? (c : Char) : Option Nat :=
  if '0' ≤ c ∧ c ≤ '9' then some (c.toNat - '0'.toNat)
  else if 'a' ≤ c ∧ c ≤ 'f' then some (c.toNat - 'a'.toNat + 10)
  else if 'A' ≤ c ∧ c ≤ 'F' then some (c.toNat - 'A'.toNat + 10)
  else none

/-- The 16 bits that four digits stand for. -/
def unit? (a b c d : Char) : Option Nat := do
  let a ← hexValue? a
  let b ← hexValue? b
  let c ← hexValue? c
  let d ← hexValue? d
  return ((a * 16 + b) * 16 + c) * 16 + d

def isHighSurrogate (u : Nat) : Bool := 0xd800 ≤ u && u < 0xdc00

def isLowSurrogate (u : Nat) : Bool := 0xdc00 ≤ u && u < 0xe000

/-- The character outside the first 2¹⁶ that a pair of surrogates stands for. -/
def joinSurrogates (high low : Nat) : Char :=
  Char.ofNat (0x10000 + (high - 0xd800) * 0x400 + (low - 0xdc00))

/-- What a letter after a backslash stands for. -/
def escaped? (c : Char) : Option Char :=
  match c with
  | '"' => some '"'
  | '\\' => some '\\'
  | '/' => some '/'
  | 'b' => some '\x08'
  | 'f' => some '\x0c'
  | 'n' => some '\n'
  | 'r' => some '\r'
  | 't' => some '\t'
  | _ => none

/-- The characters up to the closing quote, and the text after it. A surrogate is read only as one
of a pair. -/
def readString : List Char → Option (List Char × List Char)
  | [] => none
  | c :: cs =>
    if c = '"' then some ([], cs)
    else if c = '\\' then
      match cs with
      | 'u' :: a :: b :: c :: d :: rest =>
        match unit? a b c d with
        | none => none
        | some u =>
          if isHighSurrogate u then
            match rest with
            | '\\' :: 'u' :: e :: f :: g :: h :: rest =>
              match unit? e f g h with
              | none => none
              | some v =>
                if isLowSurrogate v then
                  (readString rest).map fun (s, r) => (joinSurrogates u v :: s, r)
                else none
            | _ => none
          else if isLowSurrogate u then none
          else (readString rest).map fun (s, r) => (Char.ofNat u :: s, r)
      | e :: rest =>
        match escaped? e with
        | none => none
        | some c => (readString rest).map fun (s, r) => (c :: s, r)
      | [] => none
    else if c.toNat < 0x20 then none
    else (readString cs).map fun (s, r) => (c :: s, r)

/-! ### Numbers -/

/-- A number without point and exponent is an integer as long as 64 bits hold it, with the sign if
there is one. -/
inductive Number where
  | int (n : Int)
  | float (x : Binary64)

/-- The number at the start of a text in its written form: digits before and after the point, and
the power of ten. -/
structure Numeral where
  negative : Bool
  whole : List Char
  fraction : Option (List Char)
  exponent : Option Int

def digitsValue (ds : List Char) : Nat := ds.foldl (fun n c => 10 * n + (c.toNat - '0'.toNat)) 0

/-- At least one digit. -/
def readDigits (cs : List Char) : Option (List Char × List Char) :=
  let ds := cs.takeWhile Char.isDigit
  if ds.isEmpty then none else some (ds, cs.dropWhile Char.isDigit)

/-- One zero, or digits that do not start with one. -/
def readWhole (cs : List Char) : Option (List Char × List Char) := do
  let (ds, rest) ← readDigits cs
  if ds.head? = some '0' ∧ 1 < ds.length then none else some (ds, rest)

def readFraction : List Char → Option (Option (List Char) × List Char)
  | '.' :: rest => (readDigits rest).map fun (ds, r) => (some ds, r)
  | cs => some (none, cs)

def readExponent : List Char → Option (Option Int × List Char)
  | c :: rest =>
    if c = 'e' ∨ c = 'E' then
      match rest with
      | '-' :: rest => (readDigits rest).map fun (ds, r) => (some (-(digitsValue ds : Int)), r)
      | '+' :: rest => (readDigits rest).map fun (ds, r) => (some (digitsValue ds : Int), r)
      | rest => (readDigits rest).map fun (ds, r) => (some (digitsValue ds : Int), r)
    else some (none, c :: rest)
  | [] => some (none, [])

def readNumeral (cs : List Char) : Option (Numeral × List Char) := do
  let (negative, rest) := match cs with
    | '-' :: rest => (true, rest)
    | cs => (false, cs)
  let (whole, rest) ← readWhole rest
  let (fraction, rest) ← readFraction rest
  let (exponent, rest) ← readExponent rest
  return (⟨negative, whole, fraction, exponent⟩, rest)

/-- Appends digits to a significand as long as it fits into 64 bits; with it, how many were left
over. -/
def appendDigits (n : Nat) : List Char → Nat × Nat
  | [] => (n, 0)
  | c :: cs =>
    let m := 10 * n + (c.toNat - '0'.toNat)
    if m < UInt64.size then appendDigits m cs else (n, cs.length + 1)

/-- Digits that the significand has no room for count by their place alone. -/
def Numeral.double? (n : Numeral) : Option Binary64 := do
  let (significand, left) := appendDigits 0 n.whole
  let fraction := n.fraction.getD []
  let (significand, unread) := appendDigits significand fraction
  let places : Int := (fraction.length : Int) - unread
  let x ← Decimal.ofScientific significand (left - places + n.exponent.getD 0)
  return if n.negative then x.neg else x

/-- Nothing if the number is out of a double's range. A negative zero is a double. -/
def Numeral.value? (n : Numeral) : Option Number :=
  let m := digitsValue n.whole
  if n.fraction.isNone ∧ n.exponent.isNone ∧ !n.negative ∧ m < UInt64.size then some (.int m)
  else if n.fraction.isNone ∧ n.exponent.isNone ∧ n.negative ∧ 0 < m ∧ m ≤ 0x8000000000000000 then
    some (.int (-(m : Int)))
  else n.double?.map .float

def readNumber (cs : List Char) : Option (Number × List Char) := do
  let (n, rest) ← readNumeral cs
  let v ← n.value?
  return (v, rest)

end MethodTrace.Json
