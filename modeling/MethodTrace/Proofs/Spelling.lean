import Mathlib.Data.List.Basic
import MethodTrace.Json.Lexeme

/-!
# The grammar of JSON texts

How strings, numbers and whole values are written. A reader that finds a string or a number reads all
of it and nothing that follows: of a number this holds if the text does not go on as a number might
(`Ends`), which it never does behind a value.
-/

namespace MethodTrace.Json

/-! ### Blanks -/

/-- Nothing but blanks. -/
def Blank (cs : List Char) : Prop := ∀ c ∈ cs, isBlank c = true

instance Blank.decidable (cs : List Char) : Decidable (Blank cs) :=
  List.decidableBAll _ cs

theorem skipBlanks_append {b : List Char} (h : Blank b) (cs : List Char) :
    skipBlanks (b ++ cs) = skipBlanks cs := List.dropWhile_append_of_pos h

theorem skipBlanks_cons {c : Char} (h : isBlank c = false) (cs : List Char) :
    skipBlanks (c :: cs) = c :: cs := by
  simp [skipBlanks, h]

theorem skipBlanks_blank {b : List Char} (h : Blank b) : skipBlanks b = [] := by
  have := skipBlanks_append h []
  rwa [List.append_nil] at this

/-! ### Strings -/

/-- The text between two quotes stands for a string. -/
inductive Spells : List Char → List Char → Prop
  | nil : Spells [] []
  | plain {c : Char} {cs s : List Char} (hquote : c ≠ '"') (hback : c ≠ '\\') (hc : 0x20 ≤ c.toNat)
    (h : Spells cs s) : Spells (c :: cs) (c :: s)
  | letter {e c : Char} {cs s : List Char} (he : escaped? e = some c) (h : Spells cs s) :
    Spells ('\\' :: e :: cs) (c :: s)
  | unit {a b c d : Char} {u : Nat} {cs s : List Char} (hu : unit? a b c d = some u)
    (hhigh : isHighSurrogate u = false) (hlow : isLowSurrogate u = false) (h : Spells cs s) :
    Spells ('\\' :: 'u' :: a :: b :: c :: d :: cs) (Char.ofNat u :: s)
  | pair {a b c d e f g k : Char} {u v : Nat} {cs s : List Char} (hu : unit? a b c d = some u)
    (hhigh : isHighSurrogate u = true) (hv : unit? e f g k = some v)
    (hlow : isLowSurrogate v = true) (h : Spells cs s) :
    Spells ('\\' :: 'u' :: a :: b :: c :: d :: '\\' :: 'u' :: e :: f :: g :: k :: cs)
      (joinSurrogates u v :: s)

theorem readString_plain {c : Char} (hquote : c ≠ '"') (hback : c ≠ '\\') (hc : 0x20 ≤ c.toNat)
    (cs : List Char) : readString (c :: cs) = (readString cs).map fun (s, r) => (c :: s, r) := by
  rw [readString.eq_def]
  simp only [hquote, hback, Nat.not_lt_of_le hc, if_false]

theorem readString_letter {e c : Char} (he : escaped? e = some c) (cs : List Char) :
    readString ('\\' :: e :: cs) = (readString cs).map fun (s, r) => (c :: s, r) := by
  have hu : e ≠ 'u' := by
    rintro rfl
    cases he
  rw [readString.eq_def]
  simp [he, hu]

theorem readString_of_spells {cs s : List Char} (h : Spells cs s) (rest : List Char) :
    readString (cs ++ '"' :: rest) = some (s, rest) := by
  induction h with
  | nil =>
    rw [List.nil_append, readString.eq_def]
    rfl
  | plain hquote hback hc _ ih =>
    rw [List.cons_append, readString_plain hquote hback hc, ih]
    rfl
  | letter he _ ih =>
    rw [List.cons_append, List.cons_append, readString_letter he, ih]
    rfl
  | unit hu hhigh hlow _ ih =>
    simp only [List.cons_append]
    rw [readString.eq_def]
    simp [hu, hhigh, hlow, ih]
  | pair hu hhigh hv hlow _ ih =>
    simp only [List.cons_append]
    rw [readString.eq_def]
    simp [hu, hhigh, hv, hlow, ih]

theorem Spells.append {a b s t : List Char} (ha : Spells a s) (hb : Spells b t) :
    Spells (a ++ b) (s ++ t) := by
  induction ha with
  | nil => exact hb
  | plain hquote hback hc _ ih => exact .plain hquote hback hc ih
  | letter he _ ih => exact .letter he ih
  | unit hu hhigh hlow _ ih => exact .unit hu hhigh hlow ih
  | pair hu hhigh hv hlow _ ih => exact .pair hu hhigh hv hlow ih

/-- Characters that need not be escaped. -/
def Unescaped (cs : List Char) : Prop := ∀ c ∈ cs, c ≠ '"' ∧ c ≠ '\\' ∧ 0x20 ≤ c.toNat

instance Unescaped.decidable (cs : List Char) : Decidable (Unescaped cs) :=
  List.decidableBAll _ cs

theorem spells_self {cs : List Char} (h : Unescaped cs) : Spells cs cs := by
  induction cs with
  | nil => exact .nil
  | cons c cs ih =>
    obtain ⟨⟨hquote, hback, hc⟩, hcs⟩ := List.forall_mem_cons.mp h
    exact .plain hquote hback hc (ih hcs)

/-! ### Numbers -/

/-- One digit or more. -/
def Digits (ds : List Char) : Prop := ds ≠ [] ∧ ∀ c ∈ ds, c.isDigit = true

/-- The text does not go on as a number might. -/
def Ends (cs : List Char) : Prop :=
  ∀ c ∈ cs.head?, c.isDigit = false ∧ c ≠ '.' ∧ c ≠ 'e' ∧ c ≠ 'E'

/-- Digits before the point do not start with a zero that others follow. -/
def Whole (ds : List Char) : Prop := Digits ds ∧ (ds.head? = some '0' → ds.length = 1)

/-- The point and the digits behind it, or nothing. -/
inductive Fraction : Option (List Char) → List Char → Prop
  | none : Fraction none []
  | some {ds : List Char} (h : Digits ds) : Fraction (some ds) ('.' :: ds)

/-- The power of ten, or nothing. -/
inductive Exponent : Option Int → List Char → Prop
  | none : Exponent none []
  | plain {e : Char} {ds : List Char} (he : e = 'e' ∨ e = 'E') (h : Digits ds) :
    Exponent (some (digitsValue ds : Int)) (e :: ds)
  | plus {e : Char} {ds : List Char} (he : e = 'e' ∨ e = 'E') (h : Digits ds) :
    Exponent (some (digitsValue ds : Int)) (e :: '+' :: ds)
  | minus {e : Char} {ds : List Char} (he : e = 'e' ∨ e = 'E') (h : Digits ds) :
    Exponent (some (-(digitsValue ds : Int))) (e :: '-' :: ds)

/-- How a number is written. -/
inductive Numeral.Written : Numeral → List Char → Prop
  | positive {w fs es : List Char} {f : Option (List Char)} {e : Option Int} (hw : Whole w)
    (hf : Fraction f fs) (he : Exponent e es) : Written ⟨false, w, f, e⟩ (w ++ (fs ++ es))
  | negative {w fs es : List Char} {f : Option (List Char)} {e : Option Int} (hw : Whole w)
    (hf : Fraction f fs) (he : Exponent e es) : Written ⟨true, w, f, e⟩ ('-' :: (w ++ (fs ++ es)))

/-- Digits end where no digit follows. -/
theorem readDigits_append {ds rest : List Char} (h : Digits ds)
    (hrest : ∀ c ∈ rest.head?, c.isDigit = false) : readDigits (ds ++ rest) = some (ds, rest) := by
  obtain ⟨hne, hd⟩ := h
  have htake : (ds ++ rest).takeWhile Char.isDigit = ds := by
    rw [List.takeWhile_append_of_pos hd]
    cases rest with
    | nil => simp
    | cons c rest => simp [hrest c rfl]
  have hdrop : (ds ++ rest).dropWhile Char.isDigit = rest := by
    rw [List.dropWhile_append_of_pos hd]
    cases rest with
    | nil => rfl
    | cons c rest => simp [hrest c rfl]
  simp [readDigits, htake, hdrop, hne]

theorem readWhole_append {w rest : List Char} (h : Whole w)
    (hrest : ∀ c ∈ rest.head?, c.isDigit = false) : readWhole (w ++ rest) = some (w, rest) := by
  have hzero : ¬ (w.head? = some '0' ∧ 1 < w.length) := fun hz => by
    have := h.2 hz.1
    omega
  simp [readWhole, readDigits_append h.1 hrest, hzero]

theorem Ends.not_isDigit {rest : List Char} (h : Ends rest) : ∀ c ∈ rest.head?, c.isDigit = false :=
  fun c hc => (h c hc).1

theorem Digits.head_isDigit {ds : List Char} (h : Digits ds) :
    ∃ c cs, ds = c :: cs ∧ c.isDigit = true := by
  obtain ⟨hne, hd⟩ := h
  cases ds with
  | nil => exact absurd rfl hne
  | cons c cs => exact ⟨c, cs, rfl, hd c List.mem_cons_self⟩

theorem readExponent_append {e : Option Int} {es rest : List Char} (h : Exponent e es)
    (hrest : Ends rest) : readExponent (es ++ rest) = some (e, rest) := by
  cases h with
  | none =>
    cases rest with
    | nil => rfl
    | cons c rest =>
      obtain ⟨-, -, he, hE⟩ := hrest c rfl
      simp [readExponent, he, hE]
  | @plain e ds he hd =>
    have hread := readDigits_append hd hrest.not_isDigit
    obtain ⟨c, cs, rfl, hc⟩ := hd.head_isDigit
    have hminus : c ≠ '-' := by rintro rfl; exact absurd hc (by decide)
    have hplus : c ≠ '+' := by rintro rfl; exact absurd hc (by decide)
    rw [List.cons_append] at hread ⊢
    rw [readExponent.eq_def]
    simp [he, hminus, hplus, hread]
  | plus he hd => simp [readExponent, he, readDigits_append hd hrest.not_isDigit]
  | minus he hd => simp [readExponent, he, readDigits_append hd hrest.not_isDigit]

theorem Exponent.ends {e : Option Int} {es rest : List Char} (h : Exponent e es) (hrest : Ends rest) :
    ∀ c ∈ (es ++ rest).head?, c.isDigit = false ∧ c ≠ '.' := by
  cases h with
  | none => exact fun c hc => ⟨(hrest c hc).1, (hrest c hc).2.1⟩
  | plain he | plus he | minus he =>
    rintro c ⟨⟩
    rcases he with rfl | rfl <;> decide

theorem readFraction_append {f : Option (List Char)} {fs rest : List Char} (h : Fraction f fs)
    (hrest : ∀ c ∈ rest.head?, c.isDigit = false ∧ c ≠ '.') :
    readFraction (fs ++ rest) = some (f, rest) := by
  cases h with
  | none =>
    cases rest with
    | nil => rfl
    | cons c rest =>
      have hc := (hrest c rfl).2
      rw [List.nil_append, readFraction]
      rintro _ ⟨⟩
      exact hc rfl
  | some hd => simp [readFraction, readDigits_append hd fun c hc => (hrest c hc).1]

theorem Fraction.ends {f : Option (List Char)} {fs rest : List Char} (h : Fraction f fs)
    (hrest : ∀ c ∈ rest.head?, c.isDigit = false ∧ c ≠ '.') :
    ∀ c ∈ (fs ++ rest).head?, c.isDigit = false := by
  cases h with
  | none => exact fun c hc => (hrest c hc).1
  | some hd =>
    rintro c ⟨⟩
    decide

theorem Whole.head {w : List Char} (h : Whole w) : ∃ c cs, w = c :: cs ∧ c.isDigit = true :=
  h.1.head_isDigit

/-- A number is read as it is written. -/
theorem readNumeral_append {n : Numeral} {cs rest : List Char} (h : n.Written cs)
    (hrest : Ends rest) : readNumeral (cs ++ rest) = some (n, rest) := by
  cases h with
  | @positive w fs es f e hw hf he =>
    have hends := he.ends hrest
    have hwhole := readWhole_append hw (hf.ends hends)
    have hfraction := readFraction_append hf hends
    have hexponent := readExponent_append he hrest
    obtain ⟨c, cs, rfl, hc⟩ := hw.head
    have hminus : c ≠ '-' := by rintro rfl; exact absurd hc (by decide)
    rw [List.cons_append] at hwhole
    simp only [List.cons_append, List.append_assoc, readNumeral]
    split
    · rename_i heq
      exact absurd (List.cons.inj heq).1 hminus
    · simp [hwhole, hfraction, hexponent]
  | @negative w fs es f e hw hf he =>
    have hends := he.ends hrest
    have hwhole := readWhole_append hw (hf.ends hends)
    have hfraction := readFraction_append hf hends
    have hexponent := readExponent_append he hrest
    simp [readNumeral, hwhole, hfraction, hexponent]

theorem digitChar_of_isDigit {c : Char} (h : c.isDigit = true) :
    Nat.digitChar (c.toNat - '0'.toNat) = c ∧ c.toNat - '0'.toNat < 10 := by
  have hrange : 48 ≤ c.toNat ∧ c.toNat ≤ 57 := by
    simpa [Char.isDigit, UInt32.le_iff_toNat_le] using h
  have hvalue : c.toNat - '0'.toNat < 10 := by
    show c.toNat - 48 < 10
    omega
  refine ⟨Char.toNat_inj.mp ?_, hvalue⟩
  rw [Nat.toNat_digitChar_of_lt_ten hvalue]
  show 48 + (c.toNat - 48) = c.toNat
  omega

theorem toDigits_append {cs : List Char} (h : ∀ c ∈ cs, c.isDigit = true) {n : Nat} (hn : 0 < n) :
    Nat.toDigits 10 n ++ cs = Nat.toDigits 10 (Nat.ofDigitChars 10 cs n) := by
  induction cs generalizing n with
  | nil => rw [List.append_nil, Nat.ofDigitChars_nil]
  | cons c cs ih =>
    obtain ⟨hc, hcs⟩ := List.forall_mem_cons.mp h
    obtain ⟨hchar, hvalue⟩ := digitChar_of_isDigit hc
    rw [Nat.ofDigitChars_cons, ← ih hcs (by omega),
      ← Nat.toDigits_append_toDigits (by decide) hn hvalue, Nat.toDigits_of_lt_base hvalue, hchar,
      List.append_assoc, List.singleton_append]

/-- A number has one text only. -/
theorem Whole.eq_toDigits {w : List Char} (h : Whole w) : w = Nat.toDigits 10 (digitsValue w) := by
  obtain ⟨⟨hne, hd⟩, hzero⟩ := h
  rcases w with _ | ⟨c, cs⟩
  · exact absurd rfl hne
  by_cases hc : c = '0'
  · obtain rfl : cs = [] := by simpa [hc] using hzero
    rw [hc]
    rfl
  · obtain ⟨hcd, hcs⟩ := List.forall_mem_cons.mp hd
    obtain ⟨hchar, hvalue⟩ := digitChar_of_isDigit hcd
    have hpos : 0 < c.toNat - '0'.toNat :=
      Nat.pos_of_ne_zero fun h0 => hc (by rw [← hchar, h0]; rfl)
    have happend := toDigits_append hcs hpos
    rw [Nat.toDigits_of_lt_base hvalue, hchar] at happend
    show c :: cs = Nat.toDigits 10 (Nat.ofDigitChars 10 cs (10 * 0 + (c.toNat - '0'.toNat)))
    rw [Nat.mul_zero, Nat.zero_add]
    exact happend

theorem head?_toDigits {n : Nat} (hn : 0 < n) : (Nat.toDigits 10 n).head? ≠ some '0' := by
  induction n using Nat.strongRecOn with
  | ind n ih =>
    by_cases hlt : n < 10
    · rw [Nat.toDigits_of_lt_base hlt]
      intro h
      exact Nat.ne_of_gt hn (Nat.digitChar_eq_zero.mp (Option.some.inj h))
    · rw [Nat.toDigits_of_base_le (by decide) (Nat.le_of_not_lt hlt),
        List.head?_append_of_ne_nil _ Nat.toDigits_ne_nil]
      exact ih (n / 10) (by omega) (by omega)

theorem whole_toDigits (n : Nat) : Whole (Nat.toDigits 10 n) := by
  refine ⟨⟨Nat.toDigits_ne_nil, fun c hc => Nat.isDigit_of_mem_toDigits (by decide) (by decide) hc⟩,
    fun hzero => ?_⟩
  rcases Nat.eq_zero_or_pos n with rfl | hn
  · rfl
  · exact absurd hzero (head?_toDigits hn)

theorem digitsValue_toDigits (n : Nat) : digitsValue (Nat.toDigits 10 n) = n :=
  Nat.ofDigitChars_ten_toDigits

theorem readNumber_append {n : Numeral} {cs rest : List Char} (h : n.Written cs) (hrest : Ends rest) :
    readNumber (cs ++ rest) = n.value?.map fun v => (v, rest) := by
  rw [readNumber, readNumeral_append h hrest]
  cases hv : n.value? <;> simp [hv]

/-- A number that is read as an integer without a sign is written in plain digits. -/
theorem Numeral.Written.eq_of_value? {n : Numeral} {cs : List Char} (h : n.Written cs) {k : Int}
    (hv : n.value? = some (.int k)) (hk : 0 ≤ k) :
    Whole cs ∧ k = digitsValue cs ∧ digitsValue cs < UInt64.size := by
  unfold Numeral.value? at hv
  dsimp only at hv
  split at hv
  · rename_i hplain
    obtain ⟨hfraction, hexponent, hsign, hlt⟩ := hplain
    cases h with
    | @positive w fs es f e hw hf he =>
      cases hf with
      | some => cases hfraction
      | none =>
        cases he with
        | none =>
          simp only [List.append_nil]
          exact ⟨hw, (Number.int.inj (Option.some.inj hv)).symm, hlt⟩
        | plain | plus | minus => cases hexponent
    | negative => cases hsign
  · split at hv
    · rename_i hplain
      have := Number.int.inj (Option.some.inj hv)
      omega
    · rcases hd : n.double? with _ | x <;> simp [hd] at hv

theorem value?_of_whole {w : List Char} (h : digitsValue w < UInt64.size) :
    Numeral.value? ⟨false, w, none, none⟩ = some (.int (digitsValue w)) := by
  simp [Numeral.value?, h]

/-! ### Values -/

/-- Texts with commas between them, or before each of them. -/
def commaed (first : Bool) (ts : List (List Char)) : List Char :=
  match first, ts with
  | true, t :: ts => t ++ ts.flatMap (',' :: ·)
  | _, ts => ts.flatMap (',' :: ·)

/-- A value and the blanks around it. -/
structure Item where
  before : List Char
  value : List Char
  after : List Char

namespace Item

def chars (i : Item) : List Char := i.before ++ (i.value ++ i.after)

structure Spaced (i : Item) : Prop where
  before : Blank i.before
  after : Blank i.after

end Item

/-- A member of an object: a key, which spells a name, and a value, and the blanks around them. -/
structure Member where
  before : List Char
  key : List Char
  name : String
  after : List Char
  item : Item

namespace Member

def chars (m : Member) : List Char :=
  m.before ++ '"' :: (m.key ++ '"' :: (m.after ++ ':' :: m.item.chars))

structure Spelled (m : Member) : Prop where
  before : Blank m.before
  key : Spells m.key m.name.toList
  after : Blank m.after
  item : m.item.Spaced

end Member

/-- `gap` is for an array without items. -/
def arrayText (gap : List Char) (items : List Item) : List Char :=
  '[' :: (gap ++ (commaed true (items.map Item.chars) ++ [']']))

/-- `gap` is for an object without members. -/
def objectText (gap : List Char) (members : List Member) : List Char :=
  '\x7b' :: (gap ++ (commaed true (members.map Member.chars) ++ ['\x7d']))

/-- The text of a value. -/
inductive IsValue : List Char → Prop
  | null : IsValue ['n', 'u', 'l', 'l']
  | yes : IsValue ['t', 'r', 'u', 'e']
  | no : IsValue ['f', 'a', 'l', 's', 'e']
  | number {n : Numeral} {cs : List Char} (h : n.Written cs) : IsValue cs
  | string {cs s : List Char} (h : Spells cs s) : IsValue ('"' :: (cs ++ ['"']))
  | array {gap : List Char} {items : List Item} (hgap : Blank gap)
    (hitems : ∀ i ∈ items, i.Spaced) (hvalues : ∀ i ∈ items, IsValue i.value) :
    IsValue (arrayText gap items)
  | object {gap : List Char} {members : List Member} (hgap : Blank gap)
    (hmembers : ∀ m ∈ members, m.Spelled) (hvalues : ∀ m ∈ members, IsValue m.item.value) :
    IsValue (objectText gap members)

/-- With what a value starts. -/
inductive Opens : Char → List Char → Prop
  | null (cs : List Char) : Opens 'n' cs
  | yes : Opens 't' ['r', 'u', 'e']
  | no : Opens 'f' ['a', 'l', 's', 'e']
  | number {n : Numeral} {c : Char} {cs : List Char} (h : n.Written (c :: cs))
    (hc : c = '-' ∨ c.isDigit = true) : Opens c cs
  | string (cs : List Char) : Opens '"' cs
  | array (cs : List Char) : Opens '[' cs
  | object (cs : List Char) : Opens '\x7b' cs

theorem Numeral.Written.head {n : Numeral} {cs : List Char} (h : n.Written cs) :
    ∃ c rest, cs = c :: rest ∧ (c = '-' ∨ c.isDigit = true) := by
  cases h with
  | positive hw =>
    obtain ⟨c, cs, rfl, hc⟩ := hw.head
    exact ⟨c, _, rfl, .inr hc⟩
  | negative => exact ⟨'-', _, rfl, .inl rfl⟩

theorem IsValue.opens {v : List Char} (h : IsValue v) : ∃ c cs, v = c :: cs ∧ Opens c cs := by
  cases h with
  | null => exact ⟨_, _, rfl, .null _⟩
  | yes => exact ⟨_, _, rfl, .yes⟩
  | no => exact ⟨_, _, rfl, .no⟩
  | number h =>
    obtain ⟨c, cs, rfl, hc⟩ := h.head
    exact ⟨c, cs, rfl, .number h hc⟩
  | string => exact ⟨_, _, rfl, .string _⟩
  | array => exact ⟨_, _, rfl, .array _⟩
  | object => exact ⟨_, _, rfl, .object _⟩

theorem isBlank_of_isDigit {c : Char} (h : c.isDigit = true) : isBlank c = false := by
  have hne : ∀ b : Char, b.isDigit = false → c ≠ b := by
    rintro b hb rfl
    rw [h] at hb
    cases hb
  simp [isBlank, hne]

/-- The text starts with what is neither a blank nor a closing bracket. -/
def Starts (v : List Char) : Prop := ∃ c cs, v = c :: cs ∧ isBlank c = false ∧ c ≠ ']'

theorem starts_of_isDigit {c : Char} (h : c.isDigit = true) (cs : List Char) : Starts (c :: cs) := by
  refine ⟨c, cs, rfl, isBlank_of_isDigit h, ?_⟩
  rintro rfl
  exact absurd h (by decide)

theorem IsValue.starts {v : List Char} (h : IsValue v) : Starts v := by
  obtain ⟨c, cs, rfl, ho⟩ := h.opens
  cases ho with
  | null | yes | no | string | array | object => exact ⟨_, _, rfl, by decide, by decide⟩
  | number _ hc =>
    rcases hc with rfl | hc
    · exact ⟨_, _, rfl, by decide, by decide⟩
    · exact starts_of_isDigit hc cs

theorem skipBlanks_of_starts {b v : List Char} (hb : Blank b) (h : Starts v) (rest : List Char) :
    skipBlanks (b ++ (v ++ rest)) = v ++ rest := by
  obtain ⟨c, cs, rfl, hc, -⟩ := h
  rw [skipBlanks_append hb, List.cons_append, skipBlanks_cons hc]

/-- Behind the blanks after a value stands what no number goes on with. -/
theorem ends_append {b : List Char} (hb : Blank b) {d : Char} {rest : List Char}
    (hd : d = ',' ∨ d = ']' ∨ d = '\x7d') : Ends (b ++ d :: rest) := by
  rintro c hc
  rcases b with _ | ⟨c', b⟩
  · cases hc
    rcases hd with rfl | rfl | rfl <;> decide
  · cases hc
    have hblank := hb c List.mem_cons_self
    simp only [Json.isBlank, Bool.or_eq_true, decide_eq_true_eq] at hblank
    rcases hblank with ((rfl | rfl) | rfl) | rfl <;> decide

theorem ends_commaed {b : List Char} (hb : Blank b) (close : Char)
    (hclose : close = ']' ∨ close = '\x7d') (ts : List (List Char)) (trail : List Char) :
    Ends (b ++ (commaed false ts ++ close :: trail)) := by
  cases ts with
  | nil => exact ends_append hb (.inr hclose)
  | cons t ts => exact ends_append hb (.inl rfl)

end MethodTrace.Json
