import Mathlib.Data.List.Perm.Subperm
import MethodTrace.Proofs.Spelling
import MethodTrace.Settings.Reader

/-!
# Which texts are settings

An object is read as settings exactly if its keys are names of fields, none of them twice, and each
number stands in plain digits and is in its field's range. What a reader sees of the rest of a text
does not matter to it: `readMembers` and `readItems` take one member or item off the text at a time
(`readMembers_cons`, `readItems_cons`), and both directions follow by induction on the members.
-/

namespace MethodTrace.Settings

open Json

/-! ### Values of fields -/

def boolChars (b : Bool) : List Char := if b then ['t', 'r', 'u', 'e'] else ['f', 'a', 'l', 's', 'e']

/-- The value of a field, a number in plain digits. -/
def plain (s : Settings) : Field → List Char
  | .threadSlots => Nat.toDigits 10 s.threadSlots.toNat
  | .depthLimit => Nat.toDigits 10 s.depthLimit.toNat
  | .captureReturns => boolChars s.captureReturns
  | .bufferCapacity => Nat.toDigits 10 s.bufferCapacity.toNat
  | .expandOnFirstInvoke => boolChars s.expandOnFirstInvoke

/-- Numbers of the field are below this. -/
def Field.bound? : Field → Option Nat
  | .threadSlots | .depthLimit => some UInt32.size
  | .bufferCapacity => some UInt64.size
  | .captureReturns | .expandOnFirstInvoke => none

/-- The settings on the given fields, the defaults on all others. -/
def only (s : Settings) (fs : List Field) : Settings where
  threadSlots := if .threadSlots ∈ fs then s.threadSlots else default.threadSlots
  depthLimit := if .depthLimit ∈ fs then s.depthLimit else default.depthLimit
  captureReturns := if .captureReturns ∈ fs then s.captureReturns else default.captureReturns
  bufferCapacity := if .bufferCapacity ∈ fs then s.bufferCapacity else default.bufferCapacity
  expandOnFirstInvoke :=
    if .expandOnFirstInvoke ∈ fs then s.expandOnFirstInvoke else default.expandOnFirstInvoke

theorem only_all (s : Settings) : s.only Field.all = s := by
  simp [only, Field.all]

theorem only_congr (s : Settings) {fs gs : List Field} (h : ∀ f, f ∈ fs ↔ f ∈ gs) :
    s.only fs = s.only gs := by
  simp only [only, h]

theorem compact_value (s : Settings) (f : Field) : (s.value f).compact.toList = s.plain f := by
  have hbool : ∀ b : Bool, (if b then "true" else "false").toList = boolChars b := by decide
  have hint : ∀ n : Nat, (toString (n : Int)).toList = Nat.toDigits 10 n :=
    fun n => String.toList_ofList
  cases f with
  | threadSlots => exact hint s.threadSlots.toNat
  | depthLimit => exact hint s.depthLimit.toNat
  | captureReturns => exact hbool s.captureReturns
  | bufferCapacity => exact hint s.bufferCapacity.toNat
  | expandOnFirstInvoke => exact hbool s.expandOnFirstInvoke

theorem Field.name_inj {f g : Field} (h : f.name = g.name) : f = g :=
  Option.some.inj (by rw [← ofName?_name f, h, ofName?_name g])

namespace Draft

/-- The draft in which exactly the given fields have been filled, from settings. -/
def of (s : Settings) (fs : List Field) : Draft where
  threadSlots := if .threadSlots ∈ fs then some s.threadSlots else none
  depthLimit := if .depthLimit ∈ fs then some s.depthLimit else none
  captureReturns := if .captureReturns ∈ fs then some s.captureReturns else none
  bufferCapacity := if .bufferCapacity ∈ fs then some s.bufferCapacity else none
  expandOnFirstInvoke := if .expandOnFirstInvoke ∈ fs then some s.expandOnFirstInvoke else none

/-- One field more, from settings. -/
def fill (d : Draft) (s : Settings) : Field → Draft
  | .threadSlots => { d with threadSlots := some s.threadSlots }
  | .depthLimit => { d with depthLimit := some s.depthLimit }
  | .captureReturns => { d with captureReturns := some s.captureReturns }
  | .bufferCapacity => { d with bufferCapacity := some s.bufferCapacity }
  | .expandOnFirstInvoke => { d with expandOnFirstInvoke := some s.expandOnFirstInvoke }

theorem of_nil (s : Settings) : of s [] = empty := by
  simp [of, empty]

theorem has_of (s : Settings) (fs : List Field) (f : Field) : (of s fs).has f = decide (f ∈ fs) := by
  cases f <;> simp only [of, has] <;> split <;> simp [*]

theorem fill_of (s : Settings) (fs : List Field) (f : Field) :
    (of s fs).fill s f = of s (fs ++ [f]) := by
  cases f <;> simp [of, fill]

theorem settings_of (s : Settings) (fs : List Field) : (of s fs).settings = s.only fs := by
  have hgetD : ∀ {α : Type} {p : Prop} [Decidable p] (a b : α),
      (if p then some a else none).getD b = if p then a else b := by
    intro _ _ _ _ _
    split <;> rfl
  simp only [settings, of, only, hgetD]

theorem has_fill (d : Draft) (s : Settings) (f g : Field) :
    (d.fill s f).has g = (decide (f = g) || d.has g) := by
  cases f <;> cases g <;> rfl

end Draft

/-! ### Reading a value -/

theorem bind_eq_ok {ε α β : Type} {x : Except ε α} {f : α → Except ε β} {b : β} :
    x >>= f = .ok b ↔ ∃ a, x = .ok a ∧ f a = .ok b := by
  cases x <;> simp [bind, Except.bind]

theorem ok_bind {ε α β : Type} (a : α) (f : α → Except ε β) :
    ((Except.ok a : Except ε α) >>= f) = f a := rfl

section Values

variable {v rest : List Char}

theorem readNatural_toDigits {n bound : Nat} (hn : n < bound) (hbound : bound ≤ UInt64.size)
    (expected : Expected) (hrest : Ends rest) :
    readNatural bound expected (Nat.toDigits 10 n ++ rest) = .ok (n, rest) := by
  have hw := whole_toDigits n
  have hwritten : Numeral.Written ⟨false, Nat.toDigits 10 n, none, none⟩ (Nat.toDigits 10 n) := by
    have := Numeral.Written.positive hw .none .none
    rwa [List.append_nil, List.append_nil] at this
  have hread := readNumber_append hwritten hrest
  rw [value?_of_whole (by rw [digitsValue_toDigits]; omega), digitsValue_toDigits] at hread
  obtain ⟨c, cs, hc, hdigit⟩ := hw.head
  rw [hc] at hread ⊢
  simp only [List.cons_append, readNatural, hdigit, or_true, if_true] at hread ⊢
  simp [hread, hn]

theorem readU32_toDigits (n : UInt32) (hrest : Ends rest) :
    readU32 (Nat.toDigits 10 n.toNat ++ rest) = .ok (n, rest) := by
  simp [readU32, readNatural_toDigits n.toNat_lt_size (by decide) .u32 hrest]

theorem readU64_toDigits (n : UInt64) (hrest : Ends rest) :
    readU64 (Nat.toDigits 10 n.toNat ++ rest) = .ok (n, rest) := by
  simp [readU64, readNatural_toDigits n.toNat_lt_size (Nat.le_refl _) .u64 hrest]

theorem readBool_boolChars (b : Bool) (rest : List Char) :
    readBool (boolChars b ++ rest) = .ok (b, rest) := by
  cases b <;> rfl

/-- What is read as a natural number stands in plain digits. -/
theorem readNatural_eq_ok {bound n : Nat} {expected : Expected} {rest' : List Char} (hv : IsValue v)
    (hrest : Ends rest) (h : readNatural bound expected (v ++ rest) = .ok (n, rest')) :
    v = Nat.toDigits 10 n ∧ n < bound ∧ rest' = rest := by
  obtain ⟨c, cs, rfl, ho⟩ := hv.opens
  rw [List.cons_append, readNatural] at h
  split at h
  case isFalse => cases h
  case isTrue hstart =>
    cases ho with
    | null | yes | no | string | array | object => exact absurd hstart (by decide)
    | number hw hc =>
      rw [← List.cons_append, readNumber_append hw hrest] at h
      rcases hvalue : Numeral.value? _ with _ | (k | x) <;> rw [hvalue] at h
      · cases h
      · simp only [Option.map_some] at h
        split at h
        case isFalse => cases h
        case isTrue hk =>
          obtain ⟨rfl, rfl⟩ := Prod.mk.inj (Except.ok.inj h)
          obtain ⟨hwhole, hvk, -⟩ := hw.eq_of_value? hvalue hk.1
          subst hvk
          exact ⟨hwhole.eq_toDigits, by omega, rfl⟩
      · cases h

theorem readU32_eq_ok {n : UInt32} {rest' : List Char} (hv : IsValue v) (hrest : Ends rest)
    (h : readU32 (v ++ rest) = .ok (n, rest')) : v = Nat.toDigits 10 n.toNat ∧ rest' = rest := by
  obtain ⟨⟨k, r⟩, hread, hn⟩ := bind_eq_ok.mp h
  obtain ⟨rfl, hk, rfl⟩ := readNatural_eq_ok hv hrest hread
  obtain ⟨rfl, rfl⟩ := Prod.mk.inj (Except.ok.inj hn)
  exact ⟨by rw [UInt32.toNat_ofNat_of_lt' hk], rfl⟩

theorem readU64_eq_ok {n : UInt64} {rest' : List Char} (hv : IsValue v) (hrest : Ends rest)
    (h : readU64 (v ++ rest) = .ok (n, rest')) : v = Nat.toDigits 10 n.toNat ∧ rest' = rest := by
  obtain ⟨⟨k, r⟩, hread, hn⟩ := bind_eq_ok.mp h
  obtain ⟨rfl, hk, rfl⟩ := readNatural_eq_ok hv hrest hread
  obtain ⟨rfl, rfl⟩ := Prod.mk.inj (Except.ok.inj hn)
  exact ⟨by rw [UInt64.toNat_ofNat_of_lt' hk], rfl⟩

theorem readBool_eq_ok {b : Bool} {rest' : List Char} (hv : IsValue v)
    (h : readBool (v ++ rest) = .ok (b, rest')) : v = boolChars b ∧ rest' = rest := by
  obtain ⟨c, cs, rfl, ho⟩ := hv.opens
  cases ho with
  | yes =>
    obtain ⟨rfl, rfl⟩ := Prod.mk.inj (Except.ok.inj h)
    exact ⟨rfl, rfl⟩
  | no =>
    obtain ⟨rfl, rfl⟩ := Prod.mk.inj (Except.ok.inj h)
    exact ⟨rfl, rfl⟩
  | null | string | array | object => cases h
  | number hw hc =>
    unfold readBool at h
    split at h
    · rename_i heq
      obtain ⟨rfl, -⟩ := List.cons.inj heq
      exact absurd hc (by decide)
    · rename_i heq
      obtain ⟨rfl, -⟩ := List.cons.inj heq
      exact absurd hc (by decide)
    · cases h

theorem plain_starts (s : Settings) (f : Field) : Starts (s.plain f) := by
  have hbool : ∀ b : Bool, Starts (boolChars b) := by
    rintro (_ | _) <;> exact ⟨_, _, rfl, by decide, by decide⟩
  have hnat : ∀ n : Nat, Starts (Nat.toDigits 10 n) := by
    intro n
    obtain ⟨c, cs, h, hc⟩ := (whole_toDigits n).head
    rw [h]
    exact starts_of_isDigit hc cs
  cases f <;> first | exact hnat _ | exact hbool _

variable {d d' : Draft} {s : Settings} {f : Field} {b : List Char}

theorem Draft.read_plain (d : Draft) (s : Settings) (f : Field) (hb : Blank b) (hrest : Ends rest) :
    d.read f (b ++ (s.plain f ++ rest)) = .ok (d.fill s f, rest) := by
  simp only [Draft.read, skipBlanks_of_starts hb (plain_starts s f)]
  cases f with
  | threadSlots | depthLimit => simp only [plain, readU32_toDigits _ hrest]; rfl
  | bufferCapacity => simp only [plain, readU64_toDigits _ hrest]; rfl
  | captureReturns | expandOnFirstInvoke => simp only [plain, readBool_boolChars]; rfl

/-- A value that is read is the plain value of some settings. -/
theorem Draft.read_eq_ok {rest' : List Char} (hv : IsValue v) (hb : Blank b) (hrest : Ends rest)
    (h : d.read f (b ++ (v ++ rest)) = .ok (d', rest')) :
    ∃ s : Settings, v = s.plain f ∧ d' = d.fill s f ∧ rest' = rest := by
  simp only [Draft.read, skipBlanks_of_starts hb hv.starts] at h
  cases f with
  | threadSlots =>
    obtain ⟨⟨n, r⟩, hread, hd⟩ := bind_eq_ok.mp h
    obtain ⟨rfl, rfl⟩ := readU32_eq_ok hv hrest hread
    obtain ⟨rfl, rfl⟩ := Prod.mk.inj (Except.ok.inj hd)
    exact ⟨{ default with threadSlots := n }, rfl, rfl, rfl⟩
  | depthLimit =>
    obtain ⟨⟨n, r⟩, hread, hd⟩ := bind_eq_ok.mp h
    obtain ⟨rfl, rfl⟩ := readU32_eq_ok hv hrest hread
    obtain ⟨rfl, rfl⟩ := Prod.mk.inj (Except.ok.inj hd)
    exact ⟨{ default with depthLimit := n }, rfl, rfl, rfl⟩
  | bufferCapacity =>
    obtain ⟨⟨n, r⟩, hread, hd⟩ := bind_eq_ok.mp h
    obtain ⟨rfl, rfl⟩ := readU64_eq_ok hv hrest hread
    obtain ⟨rfl, rfl⟩ := Prod.mk.inj (Except.ok.inj hd)
    exact ⟨{ default with bufferCapacity := n }, rfl, rfl, rfl⟩
  | captureReturns =>
    obtain ⟨⟨b, r⟩, hread, hd⟩ := bind_eq_ok.mp h
    obtain ⟨rfl, rfl⟩ := readBool_eq_ok hv hread
    obtain ⟨rfl, rfl⟩ := Prod.mk.inj (Except.ok.inj hd)
    exact ⟨{ default with captureReturns := b }, rfl, rfl, rfl⟩
  | expandOnFirstInvoke =>
    obtain ⟨⟨b, r⟩, hread, hd⟩ := bind_eq_ok.mp h
    obtain ⟨rfl, rfl⟩ := readBool_eq_ok hv hread
    obtain ⟨rfl, rfl⟩ := Prod.mk.inj (Except.ok.inj hd)
    exact ⟨{ default with expandOnFirstInvoke := b }, rfl, rfl, rfl⟩

end Values

/-! ### Items, keys and members -/

section Lists

variable {close : Char} {pre t rest trail : List Char} {ts : List (List Char)}

theorem nextItem_done (first : Bool) (hpre : Blank pre) (hclose : isBlank close = false)
    (trail : List Char) :
    nextItem close first (pre ++ (commaed first [] ++ close :: trail)) = .ok (false, trail) := by
  have hc : commaed first [] = [] := by cases first <;> rfl
  rw [hc, List.nil_append, nextItem, skipBlanks_append hpre, skipBlanks_cons hclose]
  simp

/-- An item starts with `c`, behind blanks. -/
theorem nextItem_more (first : Bool) {b : List Char} {c : Char} (hpre : Blank pre) (hb : Blank b)
    (hc : isBlank c = false) (hclose : c ≠ close) (hcomma : close ≠ ',') (cs : List Char)
    (ts : List (List Char)) (rest : List Char) :
    nextItem close first (pre ++ (commaed first ((b ++ c :: cs) :: ts) ++ rest)) =
      .ok (true, c :: (cs ++ (commaed false ts ++ rest))) := by
  cases first with
  | true =>
    have hskip : skipBlanks (pre ++ (commaed true ((b ++ c :: cs) :: ts) ++ rest)) =
        c :: (cs ++ (commaed false ts ++ rest)) := by
      rw [skipBlanks_append hpre]
      simp only [commaed, List.append_assoc, List.cons_append]
      rw [skipBlanks_append hb, skipBlanks_cons hc]
    simp [nextItem, hskip, hclose]
  | false =>
    have hskip : skipBlanks (pre ++ (commaed false ((b ++ c :: cs) :: ts) ++ rest)) =
        ',' :: (b ++ c :: (cs ++ (commaed false ts ++ rest))) := by
      rw [skipBlanks_append hpre]
      simp only [commaed, List.flatMap_cons, List.append_assoc, List.cons_append]
      exact skipBlanks_cons rfl _
    have hskip' : skipBlanks (b ++ c :: (cs ++ (commaed false ts ++ rest))) =
        c :: (cs ++ (commaed false ts ++ rest)) := by
      rw [skipBlanks_append hb, skipBlanks_cons hc]
    simp [nextItem, hskip, hskip', hclose, hcomma.symm]

theorem readMembers_nil (fuel : Nat) (first : Bool) (d : Draft) (hpre : Blank pre)
    (trail : List Char) :
    readMembers (fuel + 1) first d (pre ++ (commaed first [] ++ '\x7d' :: trail)) =
      .ok (d, trail) := by
  rw [readMembers, nextItem_done first hpre (by decide)]
  rfl

/-- The field that a key stands for, if the draft has no value for it. -/
def Draft.field (d : Draft) (name : String) : Except Error Field :=
  match Field.ofName? name with
  | none => .error (.rejected (.unknownField name))
  | some f => if d.has f then .error (.rejected (.repeatedField f)) else .ok f

theorem Draft.field_eq_ok {d : Draft} {name : String} {f : Field} :
    d.field name = .ok f ↔ name = f.name ∧ d.has f = false := by
  unfold Draft.field
  constructor
  · intro h
    rcases hf : Field.ofName? name with _ | g <;> rw [hf] at h
    · cases h
    · dsimp only at h
      split at h
      · cases h
      · rename_i hhas
        obtain rfl := Except.ok.inj h
        exact ⟨Field.eq_name_of_ofName? hf, Bool.eq_false_iff.mpr hhas⟩
  · rintro ⟨rfl, hhas⟩
    simp [Field.ofName?_name, hhas]

theorem readKey_append (d : Draft) {key after : List Char} {name : String}
    (hkey : Spells key name.toList) (hafter : Blank after) (rest : List Char) :
    readKey d ('"' :: (key ++ '"' :: (after ++ ':' :: rest))) =
      (d.field name).map fun f => (f, rest) := by
  have hskip : skipBlanks (after ++ ':' :: rest) = ':' :: rest := by
    rw [skipBlanks_append hafter, skipBlanks_cons (by decide)]
  simp only [readKey, readString_of_spells hkey, orMalformed, ok_bind, String.ofList_toList,
    Draft.field]
  rcases Field.ofName? name with _ | f
  · rfl
  · rcases hhas : d.has f <;> simp only [hhas, hskip] <;> rfl

/-- A key is looked at before what follows it. -/
theorem readMembers_cons (fuel : Nat) (first : Bool) (d : Draft) (hpre : Blank pre) {m : Member}
    (hm : m.Spelled) (ts : List (List Char)) (rest : List Char) :
    readMembers (fuel + 1) first d (pre ++ (commaed first (m.chars :: ts) ++ rest)) = (do
      let f ← d.field m.name
      let (d, cs) ← d.read f (m.item.chars ++ (commaed false ts ++ rest))
      readMembers fuel false d cs) := by
  have hopen : '"' ≠ '\x7d' := by decide
  have hnext := nextItem_more first hpre hm.before rfl hopen (by decide)
    (m.key ++ '"' :: (m.after ++ ':' :: m.item.chars)) ts rest
  have hkey := readKey_append d hm.key hm.after (m.item.chars ++ (commaed false ts ++ rest))
  have hshape : '"' :: ((m.key ++ '"' :: (m.after ++ ':' :: m.item.chars)) ++
      (commaed false ts ++ rest)) = '"' :: (m.key ++ '"' :: (m.after ++ ':' ::
        (m.item.chars ++ (commaed false ts ++ rest)))) := by
    simp only [List.append_assoc, List.cons_append]
  rw [hshape] at hnext
  simp only [readMembers, Member.chars, hnext]
  show (readKey d _ >>= _) = _
  rw [hkey]
  cases d.field m.name <;> rfl

theorem readItems_nil (first : Bool) (d : Draft) (hpre : Blank pre) (fs : List Field)
    (trail : List Char) :
    readItems first d (pre ++ (commaed first [] ++ ']' :: trail)) fs = .ok (d, trail) := by
  cases fs <;> rw [readItems, nextItem_done first hpre (by decide)] <;> rfl

theorem nextItem_item (first : Bool) (hpre : Blank pre) {i : Item} (hbefore : Blank i.before)
    (hstarts : Starts i.value) (ts : List (List Char)) (rest : List Char) :
    nextItem ']' first (pre ++ (commaed first (i.chars :: ts) ++ rest)) =
      .ok (true, i.value ++ (i.after ++ (commaed false ts ++ rest))) := by
  obtain ⟨c, cs, hvalue, hc, hclose⟩ := hstarts
  have hnext := nextItem_more first hpre hbefore hc hclose (by decide) (cs ++ i.after) ts rest
  have hchars : i.before ++ c :: (cs ++ i.after) = i.chars := by
    rw [Item.chars, hvalue, List.cons_append]
  rw [hchars] at hnext
  rw [hnext, hvalue, List.cons_append, List.append_assoc cs]

theorem readItems_cons (first : Bool) (d : Draft) (hpre : Blank pre) {i : Item}
    (hbefore : Blank i.before) (hstarts : Starts i.value) (f : Field) (fs : List Field)
    (ts : List (List Char)) (rest : List Char) :
    readItems first d (pre ++ (commaed first (i.chars :: ts) ++ rest)) (f :: fs) = (do
      let (d, cs) ← d.read f (i.value ++ (i.after ++ (commaed false ts ++ rest)))
      readItems false d cs fs) := by
  rw [readItems, nextItem_item first hpre hbefore hstarts]
  rfl

/-- There is no field for the item. -/
theorem readItems_full (first : Bool) (d : Draft) (hpre : Blank pre) {i : Item}
    (hbefore : Blank i.before) (hstarts : Starts i.value) (ts : List (List Char))
    (rest : List Char) :
    readItems first d (pre ++ (commaed first (i.chars :: ts) ++ rest)) [] = .error .malformed := by
  rw [readItems, nextItem_item first hpre hbefore hstarts]
  rfl

end Lists

/-! ### Whole texts -/

/-- The member is the value of a field. -/
structure Gives (s : Settings) (f : Field) (m : Member) : Prop where
  name : m.name = f.name
  value : m.item.value = s.plain f

section Texts

variable {s : Settings} {pre trail : List Char} {d d' : Draft}

theorem read_item (d : Draft) (f : Field) (i : Item) (rest : List Char) :
    d.read f (i.chars ++ rest) = d.read f (i.before ++ (i.value ++ (i.after ++ rest))) := by
  simp only [Item.chars, List.append_assoc]

theorem readMembers_plain {fields : List Field} {members : List Member}
    (h : List.Forall₂ s.Gives fields members) (hm : ∀ m ∈ members, m.Spelled) (done : List Field)
    (hnodup : (done ++ fields).Nodup) {fuel : Nat} (hfuel : fields.length < fuel) (first : Bool)
    (hpre : Blank pre) (trail : List Char) :
    readMembers fuel first (.of s done)
        (pre ++ (commaed first (members.map Member.chars) ++ '\x7d' :: trail)) =
      .ok (.of s (done ++ fields), trail) := by
  induction h generalizing done fuel first pre with
  | nil =>
    cases fuel with
    | zero => cases hfuel
    | succ fuel => rw [List.map_nil, readMembers_nil fuel first _ hpre, List.append_nil]
  | @cons f m fields members hf _ ih =>
    obtain ⟨hspelled, hm⟩ := List.forall_mem_cons.mp hm
    cases fuel with
    | zero => cases hfuel
    | succ fuel =>
      have hnew : f ∉ done := fun hmem =>
        (List.nodup_append.mp hnodup).2.2 f hmem f List.mem_cons_self rfl
      have hfield : (Draft.of s done).field m.name = .ok f :=
        Draft.field_eq_ok.mpr ⟨hf.name, by simp [Draft.has_of, hnew]⟩
      have hends := ends_commaed hspelled.item.after '\x7d' (.inr rfl)
        (members.map Member.chars) trail
      rw [List.map_cons, readMembers_cons fuel first _ hpre hspelled, hfield, ok_bind, read_item,
        hf.value, Draft.read_plain _ s f hspelled.item.before hends, ok_bind, Draft.fill_of]
      have := ih hm (done ++ [f]) (by simpa using hnodup) (Nat.lt_of_succ_lt_succ hfuel)
        false hspelled.item.after
      simpa using this

/-- What is read has names of fields for keys, each once, and plain values. -/
theorem readMembers_eq_ok {members : List Member} (hm : ∀ m ∈ members, m.Spelled)
    (hv : ∀ m ∈ members, IsValue m.item.value) {fuel : Nat} {first : Bool} (hpre : Blank pre)
    {rest : List Char}
    (h : readMembers fuel first d
      (pre ++ (commaed first (members.map Member.chars) ++ '\x7d' :: trail)) = .ok (d', rest)) :
    (∀ m ∈ members, ∃ s f, Gives s f m ∧ d.has f = false) ∧ (members.map Member.name).Nodup := by
  induction members generalizing d fuel first pre with
  | nil => exact ⟨fun m hm => absurd hm List.not_mem_nil, List.nodup_nil⟩
  | cons m members ih =>
    obtain ⟨hspelled, hm⟩ := List.forall_mem_cons.mp hm
    obtain ⟨hvalue, hv⟩ := List.forall_mem_cons.mp hv
    cases fuel with
    | zero => cases h
    | succ fuel =>
      rw [List.map_cons, readMembers_cons fuel first d hpre hspelled] at h
      obtain ⟨f, hfield, h⟩ := bind_eq_ok.mp h
      obtain ⟨hname, hhas⟩ := Draft.field_eq_ok.mp hfield
      obtain ⟨⟨d₁, r⟩, hread, h⟩ := bind_eq_ok.mp h
      have hends := ends_commaed hspelled.item.after '\x7d' (.inr rfl)
        (members.map Member.chars) trail
      rw [read_item] at hread
      obtain ⟨s, hplain, rfl, rfl⟩ := Draft.read_eq_ok hvalue hspelled.item.before hends hread
      obtain ⟨hgives, hnames⟩ := ih hm hv hspelled.item.after h
      refine ⟨List.forall_mem_cons.mpr ⟨⟨s, f, ⟨hname, hplain⟩, hhas⟩, fun m' hm' => ?_⟩,
        List.nodup_cons.mpr ⟨fun hmem => ?_, hnames⟩⟩
      · obtain ⟨s', g, hg, hhas'⟩ := hgives m' hm'
        rw [Draft.has_fill, Bool.or_eq_false_iff] at hhas'
        exact ⟨s', g, hg, hhas'.2⟩
      · obtain ⟨m', hm', hmname⟩ := List.mem_map.mp hmem
        obtain ⟨s', g, hg, hhas'⟩ := hgives m' hm'
        rw [Draft.has_fill, Bool.or_eq_false_iff, decide_eq_false_iff_not] at hhas'
        exact hhas'.1 (Field.name_inj (by rw [← hname, ← hg.name, hmname]))

theorem readItems_plain {fields : List Field} {items : List Item}
    (h : List.Forall₂ (fun f i => i.value = s.plain f) fields items) (hi : ∀ i ∈ items, i.Spaced)
    (done more : List Field) (first : Bool) (hpre : Blank pre) (trail : List Char) :
    readItems first (.of s done)
        (pre ++ (commaed first (items.map Item.chars) ++ ']' :: trail)) (fields ++ more) =
      .ok (.of s (done ++ fields), trail) := by
  induction h generalizing done first pre with
  | nil => rw [List.map_nil, readItems_nil first _ hpre, List.append_nil]
  | @cons f i fields items hf _ ih =>
    obtain ⟨hspaced, hi⟩ := List.forall_mem_cons.mp hi
    have hstarts : Starts i.value := by
      rw [hf]
      exact plain_starts s f
    have hends := ends_commaed hspaced.after ']' (.inl rfl) (items.map Item.chars) trail
    have hread := Draft.read_plain (.of s done) s f (b := []) (by decide) hends
    rw [List.map_cons, List.cons_append, readItems_cons first _ hpre hspaced.before hstarts, hf]
    rw [List.nil_append] at hread
    rw [hread, ok_bind, Draft.fill_of]
    have := ih hi (done ++ [f]) false hspaced.after
    simpa using this

/-- An array that is read has no more items than there are fields, and plain values. -/
theorem readItems_eq_ok {items : List Item} (hi : ∀ i ∈ items, i.Spaced)
    (hv : ∀ i ∈ items, IsValue i.value) {fields : List Field} {first : Bool} (hpre : Blank pre)
    {rest : List Char}
    (h : readItems first d (pre ++ (commaed first (items.map Item.chars) ++ ']' :: trail)) fields =
      .ok (d', rest)) :
    items.length ≤ fields.length ∧
      ∀ p ∈ fields.zip items, ∃ s : Settings, p.2.value = s.plain p.1 := by
  induction items generalizing d first pre fields with
  | nil => exact ⟨Nat.zero_le _, by simp⟩
  | cons i items ih =>
    obtain ⟨hspaced, hi⟩ := List.forall_mem_cons.mp hi
    obtain ⟨hvalue, hv⟩ := List.forall_mem_cons.mp hv
    have hstarts := hvalue.starts
    cases fields with
    | nil =>
      rw [List.map_cons, readItems_full first d hpre hspaced.before hstarts] at h
      cases h
    | cons f fields =>
      have hends := ends_commaed hspaced.after ']' (.inl rfl) (items.map Item.chars)
        trail
      rw [List.map_cons, readItems_cons first d hpre hspaced.before hstarts] at h
      obtain ⟨⟨d₁, r⟩, hread, h⟩ := bind_eq_ok.mp h
      obtain ⟨s, hplain, rfl, rfl⟩ := Draft.read_eq_ok (b := []) hvalue (by decide) hends hread
      obtain ⟨hlength, hgives⟩ := ih hi hv hspaced.after h
      exact ⟨Nat.succ_le_succ hlength, List.forall_mem_cons.mpr ⟨⟨s, hplain⟩, hgives⟩⟩

theorem ofChars_objectText {lead gap : List Char} (hlead : Blank lead) (members : List Member)
    (trail : List Char) :
    ofChars (lead ++ (objectText gap members ++ trail)) = (do
      let (d, rest) ← readMembers 6 true .empty
        (gap ++ (commaed true (members.map Member.chars) ++ '\x7d' :: trail))
      if (skipBlanks rest).isEmpty then return d.settings else .error .malformed) := by
  have hskip : skipBlanks (lead ++ (objectText gap members ++ trail)) =
      '\x7b' :: (gap ++ (commaed true (members.map Member.chars) ++ '\x7d' :: trail)) := by
    rw [skipBlanks_append hlead, objectText, List.cons_append, skipBlanks_cons (by decide)]
    simp only [List.append_assoc, List.singleton_append]
  simp only [ofChars, readDraft, hskip]
  rfl

theorem ofChars_arrayText {lead gap : List Char} (hlead : Blank lead) (items : List Item)
    (trail : List Char) :
    ofChars (lead ++ (arrayText gap items ++ trail)) = (do
      let (d, rest) ← readItems true .empty
        (gap ++ (commaed true (items.map Item.chars) ++ ']' :: trail)) Field.all
      if (skipBlanks rest).isEmpty then return d.settings else .error .malformed) := by
  have hskip : skipBlanks (lead ++ (arrayText gap items ++ trail)) =
      '[' :: (gap ++ (commaed true (items.map Item.chars) ++ ']' :: trail)) := by
    rw [skipBlanks_append hlead, arrayText, List.cons_append, skipBlanks_cons (by decide)]
    simp only [List.append_assoc, List.singleton_append]
  simp only [ofChars, readDraft, hskip]

end Texts

/-! ### Integers out of range -/

/-- An integer without point and exponent. -/
inductive IntegerText : Int → List Char → Prop
  | positive {w : List Char} (h : Whole w) : IntegerText (digitsValue w) w
  | negative {w : List Char} (h : Whole w) : IntegerText (-(digitsValue w : Int)) ('-' :: w)

/-- An integer that the field has no room for. -/
def OutOfRange (f : Field) (v : List Char) : Prop :=
  ∃ (bound : Nat) (z : Int), f.bound? = some bound ∧ IntegerText z v ∧ ¬ (0 ≤ z ∧ z < bound)

theorem IntegerText.eq_of_toDigits {z : Int} {n : Nat} (h : IntegerText z (Nat.toDigits 10 n)) :
    z = n := by
  generalize hv : Nat.toDigits 10 n = v at h
  cases h with
  | positive => rw [← hv, digitsValue_toDigits]
  | negative =>
    have hdigit := Nat.isDigit_of_mem_toDigits (b := 10) (n := n) (c := '-') (by decide) (by decide)
      (by rw [hv]; exact List.mem_cons_self)
    cases hdigit

theorem not_outOfRange_plain (s : Settings) (f : Field) : ¬ OutOfRange f (s.plain f) := by
  rintro ⟨bound, z, hbound, hz, hrange⟩
  have hnat : ∀ n : Nat, n < bound → ¬ IntegerText z (Nat.toDigits 10 n) := by
    intro n hn hz
    have := hz.eq_of_toDigits
    omega
  cases f with
  | threadSlots =>
    cases hbound
    exact hnat _ s.threadSlots.toNat_lt_size hz
  | depthLimit =>
    cases hbound
    exact hnat _ s.depthLimit.toNat_lt_size hz
  | bufferCapacity =>
    cases hbound
    exact hnat _ s.bufferCapacity.toNat_lt_size hz
  | captureReturns | expandOnFirstInvoke => cases hbound

/-! ### The text that settings are written as -/

theorem commas_toList (ts : List String) :
    (commas ts).toList = commaed true (ts.map String.toList) := by
  induction ts with
  | nil => rfl
  | cons t ts ih =>
    cases ts with
    | nil => simp [commas, commaed]
    | cons u ts =>
      rw [commas, String.intercalate_cons_cons, ← commas, String.toList_append, ih]
      simp [commaed]

theorem quote_name (f : Field) : (quote f.name).toList = '"' :: (f.name.toList ++ ['"']) := by
  cases f <;> decide

/-- The member as the settings' own text has it. -/
def member (s : Settings) (f : Field) : Member :=
  ⟨[], f.name.toList, f.name, [], ⟨[], s.plain f, []⟩⟩

theorem member_spelled (s : Settings) (f : Field) : (s.member f).Spelled := by
  have hkey : Unescaped f.name.toList := by
    cases f <;> decide
  have hblank : Blank [] := by decide
  exact ⟨hblank, spells_self hkey, hblank, hblank, hblank⟩

theorem text_toList (s : Settings) :
    s.text.toList = objectText [] (Field.all.map s.member) := by
  have hmember : ∀ f : Field, (quote f.name ++ ":" ++ (s.value f).compact).toList =
      (s.member f).chars := by
    intro f
    simp [quote_name, compact_value, member, Member.chars, Item.chars]
  have htext : s.text.toList = '\x7b' :: (commaed true
      (Field.all.map fun f => (quote f.name ++ ":" ++ (s.value f).compact).toList) ++ ['\x7d']) := by
    simp only [text, toJson, Field.all, List.map_cons, List.map_nil, compact, compactMembers,
      String.toList_append, commas_toList]
    rfl
  rw [htext, funext hmember, objectText, List.map_map]
  rfl

theorem gives_member (s : Settings) (fs : List Field) :
    List.Forall₂ s.Gives fs (fs.map s.member) := by
  induction fs with
  | nil => exact .nil
  | cons f fs ih => exact .cons ⟨rfl, rfl⟩ ih

/-! ### What is read -/

section Reading

variable {lead gap trail : List Char}

theorem ofChars_object (c : Settings) {fields fs : List Field} {members : List Member}
    (hlead : Blank lead) (hgap : Blank gap) (htrail : Blank trail) (hnodup : fields.Nodup)
    (h : List.Forall₂ c.Gives fields members) (hm : ∀ m ∈ members, m.Spelled)
    (hfs : ∀ f, f ∈ fs ↔ f ∈ fields) :
    ofChars (lead ++ (objectText gap members ++ trail)) = .ok (c.only fs) := by
  have hfuel : fields.length < 6 :=
    Nat.lt_succ_of_le (hnodup.subperm fun f _ => Field.mem_all f).length_le
  have hread := readMembers_plain h hm [] (by simpa using hnodup) hfuel true hgap trail
  rw [Draft.of_nil, List.nil_append] at hread
  rw [ofChars_objectText hlead, hread, ok_bind]
  show (if (skipBlanks trail).isEmpty then Except.ok (Draft.of c fields).settings else _) = _
  rw [skipBlanks_blank htrail, Draft.settings_of, only_congr c hfs]
  rfl

theorem ofText_member (s : Settings) (f : Field) {text : String}
    (h : text.toList = objectText [] [s.member f]) : ofText text = .ok (s.only [f]) := by
  have hblank : Blank [] := by decide
  have hread := ofChars_object s hblank hblank hblank (by simp) (gives_member s [f])
    (List.forall_mem_singleton.mpr (member_spelled s f)) (fun _ => Iff.rfl)
  rwa [List.nil_append, List.append_nil, List.map_singleton, ← h] at hread

theorem ofChars_array (c : Settings) {k : Nat} {fs : List Field} {items : List Item}
    (hlead : Blank lead) (hgap : Blank gap) (htrail : Blank trail)
    (h : List.Forall₂ (fun f i => i.value = c.plain f) (Field.all.take k) items)
    (hi : ∀ i ∈ items, i.Spaced) (hfs : ∀ f, f ∈ fs ↔ f ∈ Field.all.take k) :
    ofChars (lead ++ (arrayText gap items ++ trail)) = .ok (c.only fs) := by
  have hread := readItems_plain h hi [] (Field.all.drop k) true hgap trail
  rw [Draft.of_nil, List.nil_append, List.take_append_drop] at hread
  rw [ofChars_arrayText hlead, hread, ok_bind]
  show (if (skipBlanks trail).isEmpty then Except.ok (Draft.of c (Field.all.take k)).settings else _) = _
  rw [skipBlanks_blank htrail, Draft.settings_of, only_congr c hfs]
  rfl

theorem ofChars_object_eq_ok {s : Settings} {members : List Member} (hlead : Blank lead)
    (hgap : Blank gap) (hm : ∀ m ∈ members, m.Spelled) (hv : ∀ m ∈ members, IsValue m.item.value)
    (h : ofChars (lead ++ (objectText gap members ++ trail)) = .ok s) :
    (∀ m ∈ members, ∃ s f, Gives s f m) ∧ (members.map Member.name).Nodup := by
  rw [ofChars_objectText hlead] at h
  obtain ⟨⟨d, rest⟩, hread, -⟩ := bind_eq_ok.mp h
  obtain ⟨hgives, hnames⟩ := readMembers_eq_ok hm hv hgap hread
  refine ⟨fun m hm => ?_, hnames⟩
  obtain ⟨s, f, hg, -⟩ := hgives m hm
  exact ⟨s, f, hg⟩

theorem ofChars_array_eq_ok {s : Settings} {items : List Item} (hlead : Blank lead)
    (hgap : Blank gap) (hi : ∀ i ∈ items, i.Spaced) (hv : ∀ i ∈ items, IsValue i.value)
    (h : ofChars (lead ++ (arrayText gap items ++ trail)) = .ok s) :
    items.length ≤ Field.all.length ∧
      ∀ p ∈ Field.all.zip items, ∃ s : Settings, p.2.value = s.plain p.1 := by
  rw [ofChars_arrayText hlead] at h
  obtain ⟨⟨d, rest⟩, hread, -⟩ := bind_eq_ok.mp h
  exact readItems_eq_ok hi hv hgap hread

theorem error_of_ne_ok {ε α : Type} {x : Except ε α} (h : ∀ a, x ≠ .ok a) : ∃ e, x = .error e := by
  cases x with
  | error e => exact ⟨e, rfl⟩
  | ok a => exact absurd rfl (h a)

end Reading

/-- Settings are read back from their text. An object whose keys are names of fields, each once, and
whose numbers stand in plain digits gives these fields and the defaults elsewhere, whatever the order
of the keys, the escapes in them and the blanks; so does the array of the first values. No object
with another key or a key twice is read, and no integer that its field has no room for. -/
theorem settings_texts_are_read (c : Settings) :
    ofText c.text = .ok c ∧
    (∀ (lead gap trail : List Char) (fields fs : List Field) (members : List Member),
      Blank lead → Blank gap → Blank trail → fields.Nodup → List.Forall₂ c.Gives fields members →
      (∀ m ∈ members, m.Spelled) → (∀ f, f ∈ fs ↔ f ∈ fields) →
      ofChars (lead ++ (objectText gap members ++ trail)) = .ok (c.only fs)) ∧
    (∀ (lead gap trail : List Char) (k : Nat) (fs : List Field) (items : List Item),
      Blank lead → Blank gap → Blank trail →
      List.Forall₂ (fun f i => i.value = c.plain f) (Field.all.take k) items →
      (∀ i ∈ items, i.Spaced) → (∀ f, f ∈ fs ↔ f ∈ Field.all.take k) →
      ofChars (lead ++ (arrayText gap items ++ trail)) = .ok (c.only fs)) ∧
    (∀ (lead gap trail : List Char) (members : List Member), Blank lead → Blank gap →
      (∀ m ∈ members, m.Spelled) → (∀ m ∈ members, IsValue m.item.value) →
      (∃ m ∈ members, ∀ f : Field, m.name ≠ f.name) ∨ ¬ (members.map Member.name).Nodup ∨
        (∃ m ∈ members, ∃ f : Field, m.name = f.name ∧ OutOfRange f m.item.value) →
      ∃ e, ofChars (lead ++ (objectText gap members ++ trail)) = .error e) ∧
    (∀ (lead gap trail : List Char) (items : List Item), Blank lead → Blank gap →
      (∀ i ∈ items, i.Spaced) → (∀ i ∈ items, IsValue i.value) →
      (∃ p ∈ Field.all.zip items, OutOfRange p.1 p.2.value) →
      ∃ e, ofChars (lead ++ (arrayText gap items ++ trail)) = .error e) := by
  refine ⟨?_, ?_, ?_, ?_, ?_⟩
  · have hblank : Blank [] := by decide
    have hm : ∀ m ∈ Field.all.map c.member, m.Spelled :=
      List.forall_mem_map.mpr fun f _ => member_spelled c f
    have hread := ofChars_object c hblank hblank hblank (by decide) (gives_member c Field.all) hm
      (fun _ => Iff.rfl)
    rwa [List.nil_append, List.append_nil, ← text_toList, only_all] at hread
  · intro lead gap trail fields fs members hlead hgap htrail hnodup h hm hfs
    exact ofChars_object c hlead hgap htrail hnodup h hm hfs
  · intro lead gap trail k fs items hlead hgap htrail h hi hfs
    exact ofChars_array c hlead hgap htrail h hi hfs
  · intro lead gap trail members hlead hgap hm hv hwrong
    refine error_of_ne_ok fun s hs => ?_
    obtain ⟨hgives, hnames⟩ := ofChars_object_eq_ok hlead hgap hm hv hs
    rcases hwrong with ⟨m, hmem, hunknown⟩ | htwice | ⟨m, hmem, f, hname, hrange⟩
    · obtain ⟨s, f, hg⟩ := hgives m hmem
      exact hunknown f hg.name
    · exact htwice hnames
    · obtain ⟨s, g, hg⟩ := hgives m hmem
      obtain rfl := Field.name_inj (hname.symm.trans hg.name)
      rw [hg.value] at hrange
      exact not_outOfRange_plain s f hrange
  · intro lead gap trail items hlead hgap hi hv ⟨p, hp, hrange⟩
    refine error_of_ne_ok fun s hs => ?_
    obtain ⟨-, hplain⟩ := ofChars_array_eq_ok hlead hgap hi hv hs
    obtain ⟨s, hs⟩ := hplain p hp
    rw [hs] at hrange
    exact not_outOfRange_plain s p.1 hrange

/-- With an escaped key, and with a depth of 2³². -/
theorem escaped_key_is_read_and_large_depth_is_not :
    ofText "\x7b\"buffer_c\\u0061pacity\": 8\x7d" = .ok { default with bufferCapacity := 8 } ∧
    ∃ e, ofText "\x7b\"stack_depth_limit\":4294967296\x7d" = .error e := by
  have hblank : Blank [] := by decide
  constructor
  · have hfront : Spells "buffer_c".toList "buffer_c".toList := spells_self (by decide)
    have hback : Spells "pacity".toList "pacity".toList := spells_self (by decide)
    have hkey : Spells "buffer_c\\u0061pacity".toList "buffer_capacity".toList :=
      hfront.append (.unit (u := 97) rfl rfl rfl hback)
    have hm : Member.Spelled ⟨[], "buffer_c\\u0061pacity".toList, "buffer_capacity", [],
        ⟨[' '], ['8'], []⟩⟩ :=
      ⟨hblank, hkey, hblank, by decide, hblank⟩
    have hgives : Gives { default with bufferCapacity := 8 } .bufferCapacity
        ⟨[], "buffer_c\\u0061pacity".toList, "buffer_capacity", [], ⟨[' '], ['8'], []⟩⟩ :=
      ⟨rfl, by decide⟩
    have hread := (settings_texts_are_read { default with bufferCapacity := 8 }).2.1 [] [] []
      [.bufferCapacity] [.bufferCapacity] [_] hblank hblank hblank (by decide) (.cons hgives .nil)
      (List.forall_mem_singleton.mpr hm) (fun _ => Iff.rfl)
    exact hread
  · have hdigits : Digits "4294967296".toList := ⟨by decide, List.all_eq_true.mp (by decide)⟩
    have hwhole : Whole "4294967296".toList := ⟨hdigits, by decide⟩
    have hvalue : IsValue "4294967296".toList := .number (.positive hwhole .none .none)
    have hm : Member.Spelled ⟨[], "stack_depth_limit".toList, "stack_depth_limit", [],
        ⟨[], "4294967296".toList, []⟩⟩ :=
      ⟨hblank, spells_self (by decide), hblank, hblank, hblank⟩
    have hrange : OutOfRange .depthLimit "4294967296".toList :=
      ⟨UInt32.size, _, rfl, .positive hwhole, by decide⟩
    have hread := (settings_texts_are_read default).2.2.2.1 [] [] [] [_] hblank hblank
      (List.forall_mem_singleton.mpr hm) (List.forall_mem_singleton.mpr hvalue)
      (.inr (.inr ⟨_, List.mem_singleton_self _, .depthLimit, rfl, hrange⟩))
    exact hread

end MethodTrace.Settings
