import Mathlib.Algebra.Order.Field.Basic
import Mathlib.Data.Rat.Cast.Order
import Mathlib.Tactic.Linarith
import Mathlib.Tactic.Ring
import MethodTrace.Decimal.Binary64

/-!
# Rounding to the nearest double

Counted by their bits, the doubles from `s * normal + normal` up to the next power of two are the
multiples of `2 ^ s` (`unitsAt_add`). Those beyond are multiples of it too, and those below, which lie
denser, are farther from a quotient than `normal * 2 ^ s` is, if it is not greater. So the multiple of
`2 ^ s` that is nearest to the quotient is the double nearest to it (`gap_le_gap_unitsAt`), and whether
its last bit is zero is told by the multiple itself. `ofRatio_nearest` is what becomes of a quotient
that is in range.
-/

namespace MethodTrace.Binary64

/-- The number that a finite double stands for. -/
def value (x : Binary64) : ℚ := if x.negative then -(x.units / one) else x.units / one

/-- No finite double is nearer to `q` than `x`, and if another one is as near, the last bit of `x` is
zero. -/
structure Nearest (x : Binary64) (q : ℚ) : Prop where
  isFinite : x.isFinite = true
  le : ∀ y : Binary64, y.isFinite = true → |x.value - q| ≤ |y.value - q|
  even : ∀ y : Binary64, y.isFinite = true → y.value ≠ x.value → |y.value - q| = |x.value - q| →
    x.bits.toNat % 2 = 0

/-! ### The nearest multiple -/

section roundEven
variable {n d : Nat}

/-- How far it is from a multiple of `d` to `n`. -/
def gap (n d k : Nat) : Nat := ((k * d : Nat) - n : Int).natAbs

theorem two_mul_gap_roundEven (hd : 0 < d) : 2 * gap n d (roundEven n d) ≤ d ∧
    (2 * gap n d (roundEven n d) = d → roundEven n d % 2 = 0) := by
  have hn := Nat.div_add_mod n d
  have hr := Nat.mod_lt n hd
  rw [Nat.mul_comm] at hn
  simp only [roundEven, gap]
  split
  · omega
  · rw [Nat.add_mul, Nat.one_mul]
    omega

/-- `roundEven` is the nearest multiple, and even if there are two of them. -/
theorem gap_roundEven_le (hd : 0 < d) (k : Nat) : gap n d (roundEven n d) ≤ gap n d k ∧
    (k ≠ roundEven n d → gap n d k = gap n d (roundEven n d) → roundEven n d % 2 = 0) := by
  obtain ⟨hle, heven⟩ := two_mul_gap_roundEven (n := n) hd
  generalize roundEven n d = r at hle heven ⊢
  -- two multiples are at least `d` apart
  have hapart : k ≠ r → d ≤ gap n d k + gap n d r := by
    intro hne
    rcases Nat.lt_or_gt_of_ne hne with hlt | hlt
    · have := Nat.mul_le_mul_right d hlt
      rw [Nat.succ_mul] at this
      unfold gap
      omega
    · have := Nat.mul_le_mul_right d hlt
      rw [Nat.succ_mul] at this
      unfold gap
      omega
  refine ⟨?_, fun hne heq => heven ?_⟩
  · by_cases hne : k = r
    · rw [hne]
    · have := hapart hne
      omega
  · have := hapart hne
    omega

theorem div_le_roundEven (n d : Nat) : n / d ≤ roundEven n d := by
  simp only [roundEven]
  split <;> omega

theorem roundEven_le (n d : Nat) : roundEven n d ≤ n / d + 1 := by
  simp only [roundEven]
  split <;> omega

end roundEven

/-! ### The doubles as multiples -/

/-- The absolute value of the double of magnitude `m`, in units of the smallest positive double. -/
def unitsAt (m : Nat) : Nat := (if m < normal then m else m % normal + normal) * 2 ^ (m / normal - 1)

theorem units_eq (x : Binary64) : x.units = unitsAt x.magnitude := Nat.shiftLeft_eq _ _

theorem unitsAt_add {s r : Nat} (hr : r ≤ 2 * normal) (hs : s = 0 ∨ normal ≤ r) :
    unitsAt (s * normal + r) = r * 2 ^ s := by
  have hpos : 0 < normal := by decide
  have hdiv : (s * normal + r) / normal = s + r / normal := by
    rw [Nat.add_comm, Nat.add_mul_div_right _ _ hpos, Nat.add_comm]
  have hmod : (s * normal + r) % normal = r % normal := by
    rw [Nat.add_comm, Nat.add_mul_mod_self_right]
  rcases Nat.lt_or_ge r normal with hlt | hge
  · obtain rfl : s = 0 := hs.resolve_right (Nat.not_le_of_lt hlt)
    simp [unitsAt, hlt, Nat.div_eq_of_lt hlt]
  · have hnot : ¬ s * normal + r < normal := by omega
    rw [unitsAt, if_neg hnot, hdiv, hmod]
    rcases Nat.lt_or_eq_of_le hr with hlt | rfl
    · have hone : r / normal = 1 := Nat.div_eq_of_lt_le (by omega) (by omega)
      have hrest : r % normal = r - normal := by
        rw [Nat.mod_eq_sub_mod hge, Nat.mod_eq_of_lt (by omega)]
      rw [hone, hrest, Nat.sub_add_cancel hge, Nat.add_sub_cancel]
    · have hexp : s + 2 - 1 = s + 1 := rfl
      rw [Nat.mul_mod_left, Nat.mul_div_cancel _ hpos, Nat.zero_add, hexp, Nat.pow_succ]
      ring

/-- Every magnitude is that of a multiple. -/
theorem exists_unitsAt (m : Nat) : ∃ s r, r < 2 * normal ∧ (s = 0 ∨ normal ≤ r) ∧
    m = s * normal + r ∧ unitsAt m = r * 2 ^ s := by
  have hpos : 0 < normal := by decide
  have hm := Nat.div_add_mod m normal
  have hlt := Nat.mod_lt m hpos
  rw [Nat.mul_comm] at hm
  rcases hd : m / normal with _ | s
  · rw [hd] at hm
    have hr : m ≤ 2 * normal := by omega
    refine ⟨0, m, by omega, .inl rfl, by omega, ?_⟩
    have := unitsAt_add hr (.inl rfl : 0 = 0 ∨ _)
    rwa [Nat.zero_mul, Nat.zero_add] at this
  · rw [hd, Nat.succ_mul] at hm
    have hm : m = s * normal + (normal + m % normal) := by omega
    refine ⟨s, normal + m % normal, by omega, .inr (Nat.le_add_right _ _), hm, ?_⟩
    conv_lhs => rw [hm]
    exact unitsAt_add (by omega) (.inr (Nat.le_add_right _ _))

/-! ### Rounding a quotient -/

section ofRatio
variable {n d : Nat}

theorem gap_mul (n d k c : Nat) : gap n d (k * c) = gap n (d * c) k := by
  rw [gap, gap, Nat.mul_comm d, Nat.mul_assoc]

/-- No double is nearer than the nearest multiple of `2 ^ s`, unless the quotient is so small that the
doubles lie denser. -/
theorem gap_le_gap_unitsAt {s : Nat} (hd : 0 < d) (hs : s = 0 ∨ normal * (d * 2 ^ s) ≤ n) (m : Nat) :
    gap n (d * 2 ^ s) (roundEven n (d * 2 ^ s)) ≤ gap n d (unitsAt m) ∧
      (unitsAt m ≠ roundEven n (d * 2 ^ s) * 2 ^ s →
        gap n d (unitsAt m) = gap n (d * 2 ^ s) (roundEven n (d * 2 ^ s)) →
          roundEven n (d * 2 ^ s) % 2 = 0) := by
  have hpos : 0 < d * 2 ^ s := Nat.mul_pos hd (Nat.two_pow_pos s)
  obtain ⟨s', r', hr', -, -, hu⟩ := exists_unitsAt m
  rw [hu]
  rcases Nat.lt_or_ge s' s with hlt | hge
  · -- such a double is smaller than the power of two below the quotient
    have hn := hs.resolve_left (by omega)
    have hsmall : r' * 2 ^ s' * d < normal * (d * 2 ^ s) := by
      have hpow : 2 * 2 ^ s' ≤ 2 ^ s := by
        rw [← Nat.pow_succ']
        exact Nat.pow_le_pow_right (by decide) hlt
      have hpos' : 0 < 2 ^ s' := Nat.two_pow_pos s'
      calc r' * 2 ^ s' * d < 2 * normal * 2 ^ s' * d := by gcongr
        _ = normal * (d * (2 * 2 ^ s')) := by ring
        _ ≤ normal * (d * 2 ^ s) := by gcongr
    have hle := (gap_roundEven_le (n := n) hpos normal).1
    have hgap : gap n (d * 2 ^ s) normal < gap n d (r' * 2 ^ s') := by
      unfold gap
      omega
    exact ⟨by omega, fun _ heq => by omega⟩
  · obtain ⟨t, rfl⟩ := Nat.exists_eq_add_of_le hge
    have hmul : r' * 2 ^ (s + t) = r' * 2 ^ t * 2 ^ s := by rw [Nat.pow_add]; ring
    rw [hmul, gap_mul]
    obtain ⟨hle, heven⟩ := gap_roundEven_le (n := n) hpos (r' * 2 ^ t)
    exact ⟨hle, fun hne => heven fun h => hne (by rw [h])⟩

/-- The power of two by which `ofRatio` scales leaves a significand of 53 bits, or the quotient is too
small for that. -/
theorem scaled_quotient (hd : 0 < d) {s : Nat} (hs : s = Nat.log2 (n / d) - 52) :
    roundEven n (d * 2 ^ s) ≤ 2 * normal ∧
      (s = 0 ∨ normal * (d * 2 ^ s) ≤ n ∧ normal ≤ roundEven n (d * 2 ^ s)) := by
  have hpos : 0 < d * 2 ^ s := Nat.mul_pos hd (Nat.two_pow_pos s)
  constructor
  · have hlog : n / d < 2 * normal * 2 ^ s :=
      calc n / d < 2 ^ (Nat.log2 (n / d) + 1) := Nat.lt_log2_self
        _ ≤ 2 ^ (53 + s) := Nat.pow_le_pow_right (by decide) (by omega)
        _ = 2 * normal * 2 ^ s := Nat.pow_add 2 53 s
    have hquot : n / (d * 2 ^ s) < 2 * normal := by
      rw [Nat.div_lt_iff_lt_mul hpos]
      calc n < 2 * normal * 2 ^ s * d := (Nat.div_lt_iff_lt_mul hd).mp hlog
        _ = 2 * normal * (d * 2 ^ s) := by ring
    have := roundEven_le n (d * 2 ^ s)
    omega
  · rcases Nat.eq_zero_or_pos s with hzero | hs'
    · exact .inl hzero
    · have hne : n / d ≠ 0 := by
        intro h
        rw [h, Nat.log2_zero] at hs
        omega
      have hlog : normal * 2 ^ s ≤ n / d :=
        calc normal * 2 ^ s = 2 ^ (52 + s) := (Nat.pow_add 2 52 s).symm
          _ = 2 ^ Nat.log2 (n / d) := by congr 1; omega
          _ ≤ n / d := Nat.log2_self_le hne
      have hn : normal * (d * 2 ^ s) ≤ n :=
        calc normal * (d * 2 ^ s) = normal * 2 ^ s * d := by ring
          _ ≤ n := (Nat.le_div_iff_mul_le hd).mp hlog
      exact .inr ⟨hn, Nat.le_trans ((Nat.le_div_iff_mul_le hpos).mpr hn) (div_le_roundEven _ _)⟩

/-- What is known of a quotient that is in range: it is a multiple of a power of two, and by its bits
it comes behind as many doubles as it should. -/
structure Rounded (n d s r : Nat) : Prop where
  bits : (ofRatio n d).bits.toNat = s * normal + r
  lt : s * normal + r < infinity
  r_le : r ≤ 2 * normal
  r_ge : s = 0 ∨ normal ≤ r
  r_eq : r = roundEven (n * one) (d * 2 ^ s)
  scaled : s = 0 ∨ normal * (d * 2 ^ s) ≤ n * one

theorem one_eq : one = 2 ^ 1074 := by decide +kernel

theorem one_pos : 0 < one := by decide +kernel

theorem scale_le (hd : 0 < d) (hn : n < d * 2 ^ 1023) : Nat.log2 (n * one / d) - 52 ≤ 2044 := by
  have hlt : n * one / d < 2 ^ (1023 + 1074) := by
    refine (Nat.div_lt_iff_lt_mul hd).mpr ?_
    calc n * one < d * 2 ^ 1023 * one := Nat.mul_lt_mul_of_pos_right hn one_pos
      _ = 2 ^ (1023 + 1074) * d := by
        have hcomm (a b c : Nat) : a * b * c = b * c * a := by rw [Nat.mul_assoc, Nat.mul_comm]
        rw [one_eq, hcomm, Nat.pow_add]
  generalize n * one / d = k at hlt
  have hlog : Nat.log2 k < 1023 + 1074 := by
    rcases Nat.eq_zero_or_pos k with rfl | hpos
    · rw [Nat.log2_zero]
      decide
    · generalize 1023 + 1074 = e at hlt ⊢
      exact (Nat.log2_lt (Nat.ne_of_gt hpos)).mpr hlt
  clear hlt hn
  omega

theorem exists_rounded (hd : 0 < d) (hn : n < d * 2 ^ 1023) : ∃ s r, Rounded n d s r := by
  have hs' := scale_le hd hn
  obtain ⟨hle, hge⟩ := scaled_quotient (n := n * one) hd rfl
  generalize hs : Nat.log2 (n * one / d) - 52 = s at hs' hle hge
  generalize hr : roundEven (n * one) (d * 2 ^ s) = r at hle hge
  have hlt : s * normal + r < infinity := by
    have hmul := Nat.mul_le_mul_right normal hs'
    have hpos : 0 < normal := by decide
    have hinf : infinity = 2047 * normal := rfl
    clear hn
    omega
  refine ⟨s, r, ?_, hlt, hle, hge.imp_right And.right, hr.symm, hge.imp_right And.left⟩
  have hbits : (ofRatio n d).bits = (min (s * normal + r) infinity).toUInt64 := by
    rw [← hr, ← hs, ← Nat.shiftLeft_eq]
    rfl
  have hsize : infinity < 2 ^ 64 := by decide
  rw [hbits, Nat.min_eq_left (Nat.le_of_lt hlt), Nat.toUInt64_eq,
    UInt64.toNat_ofNat_of_lt' (Nat.lt_trans hlt hsize)]

namespace Rounded
variable {s r : Nat}

theorem magnitude (h : Rounded n d s r) : (ofRatio n d).magnitude = s * normal + r := by
  have hsign : infinity < signBit.toNat := by decide
  rw [Binary64.magnitude, h.bits]
  exact Nat.mod_eq_of_lt (Nat.lt_trans h.lt hsign)

theorem negative (h : Rounded n d s r) : (ofRatio n d).negative = false := by
  have hsign : infinity < signBit.toNat := by decide
  have hlt := h.lt
  rw [Binary64.negative, decide_eq_false_iff_not, UInt64.le_iff_toNat_le, h.bits]
  omega

theorem isFinite (h : Rounded n d s r) : (ofRatio n d).isFinite = true := by
  rw [Binary64.isFinite, h.magnitude]
  exact decide_eq_true h.lt

theorem units (h : Rounded n d s r) : (ofRatio n d).units = r * 2 ^ s := by
  rw [units_eq, h.magnitude, unitsAt_add h.r_le h.r_ge]

end Rounded

theorem value_of_not_negative {x : Binary64} (h : x.negative = false) : x.value = x.units / one := by
  rw [value, h]
  rfl

theorem cast_one_pos : (0 : ℚ) < one := Nat.cast_pos.mpr one_pos

/-- How far a number of units is from a quotient. -/
theorem abs_sub_eq_gap (hd : 0 < d) (u : Nat) :
    |(u / one - n / d : ℚ)| = gap (n * one) d u / (one * d) := by
  have hd' : (0 : ℚ) < d := by exact_mod_cast hd
  have hone := cast_one_pos
  have hsub : (u / one - n / d : ℚ) = ((u * d : Nat) - (n * one : Nat) : Int) / (one * d) := by
    rw [div_sub_div _ _ hone.ne' hd'.ne']
    push_cast
    ring
  rw [hsub, abs_div, abs_of_pos (mul_pos hone hd'), ← Int.cast_abs, Int.abs_eq_natAbs, gap,
    Int.cast_natCast]

theorem abs_units_sub_le (x : Binary64) {q : ℚ} (hq : 0 ≤ q) :
    |x.units / one - q| ≤ |x.value - q| := by
  have hu : (0 : ℚ) ≤ x.units / one := div_nonneg (Nat.cast_nonneg _) cast_one_pos.le
  rw [value]
  split
  · have hneg : -(x.units / one : ℚ) - q = -(x.units / one + q) := by ring
    rw [hneg, abs_neg, abs_of_nonneg (add_nonneg hu hq), abs_le]
    constructor <;> linarith
  · exact le_rfl

/-- A double that is as near to `q` as zero has no sign that would tell it from others of its size. -/
theorem value_eq_of_units {x y : Binary64} {q : ℚ} (hx : x.negative = false)
    (hu : y.units = x.units) (hq : 0 ≤ q) (hy : |y.value - q| ≤ q) : y.value = x.value := by
  cases hneg : y.negative with
  | false => rw [value_of_not_negative hneg, value_of_not_negative hx, hu]
  | true =>
    have hval : y.value = -(y.units / one) := by rw [value, hneg, if_pos rfl]
    have hnonneg : (0 : ℚ) ≤ y.units / one := div_nonneg (Nat.cast_nonneg _) cast_one_pos.le
    rw [hval, ← neg_add', abs_neg, abs_of_nonneg (add_nonneg hnonneg hq)] at hy
    have hzero : (y.units / one : ℚ) = 0 := by linarith
    rw [hval, value_of_not_negative hx, ← hu, hzero, neg_zero]

theorem ofRatio_nearest (hd : 0 < d) (hn : n < d * 2 ^ 1023) :
    (ofRatio n d).Nearest (n / d : ℚ) := by
  obtain ⟨s, r, h⟩ := exists_rounded hd hn
  have hscale : (0 : ℚ) < one * d := mul_pos cast_one_pos (by exact_mod_cast hd)
  have hq : (0 : ℚ) ≤ n / d := div_nonneg (Nat.cast_nonneg _) (Nat.cast_nonneg _)
  have hvalue : (ofRatio n d).value = (r * 2 ^ s : Nat) / one := by
    rw [value_of_not_negative h.negative, h.units]
  have hgap (y : Binary64) := gap_le_gap_unitsAt (n := n * one) hd h.scaled y.magnitude
  simp only [← units_eq, ← h.r_eq, ← gap_mul] at hgap
  -- a double with a sign is no nearer than the one without
  have hle (y : Binary64) : |(ofRatio n d).value - n / d| ≤ |y.units / one - (n / d : ℚ)| := by
    rw [hvalue, abs_sub_eq_gap hd, abs_sub_eq_gap hd]
    exact div_le_div_of_nonneg_right (by exact_mod_cast (hgap y).1) hscale.le
  refine ⟨h.isFinite, fun y _ => (hle y).trans (y.abs_units_sub_le hq), fun y _ hne heq => ?_⟩
  have heq' : |y.units / one - (n / d : ℚ)| = |(ofRatio n d).value - n / d| :=
    le_antisymm ((y.abs_units_sub_le hq).trans heq.le) (hle y)
  have hzero : |(ofRatio n d).value - n / d| ≤ (n / d : ℚ) := by
    refine (hle ⟨0⟩).trans_eq ?_
    have hunits : Binary64.units ⟨0⟩ = 0 := by decide
    rw [hunits, Nat.cast_zero, zero_div, zero_sub, abs_neg, abs_of_nonneg hq]
  have hunits : y.units ≠ r * 2 ^ s := fun hu =>
    hne (value_eq_of_units h.negative (hu.trans h.units.symm) hq (heq.trans_le hzero))
  have heven : r % 2 = 0 := by
    refine (hgap y).2 hunits ?_
    rw [hvalue, abs_sub_eq_gap hd, abs_sub_eq_gap hd, div_left_inj' hscale.ne'] at heq'
    exact_mod_cast heq'
  have hnormal : normal = 2 * 2251799813685248 := rfl
  rw [h.bits, hnormal, Nat.mul_left_comm]
  omega

/-- The numerator of a quotient is hardly more than the double times its denominator. -/
theorem units_ofRatio_le (hd : 0 < d) (hn : n < d * 2 ^ 1023) :
    (ofRatio n d).units * d ≤ 2 * (n * one) + d := by
  obtain ⟨s, r, h⟩ := exists_rounded hd hn
  have hpos : 0 < d * 2 ^ s := Nat.mul_pos hd (Nat.two_pow_pos s)
  have hgap := (two_mul_gap_roundEven (n := n * one) hpos).1
  rw [← h.r_eq, ← gap_mul, ← h.units, gap] at hgap
  have hscale : d * 2 ^ s ≤ n * one + d := by
    rcases h.scaled with rfl | hs
    · rw [Nat.pow_zero, Nat.mul_one]
      exact Nat.le_add_left _ _
    · have hle := Nat.mul_le_mul_right (d * 2 ^ s) (by decide : 1 ≤ normal)
      rw [Nat.one_mul] at hle
      exact Nat.le_trans (Nat.le_trans hle hs) (Nat.le_add_right _ _)
  clear hn
  omega

end ofRatio

theorem ofNat_nearest {n : Nat} (hn : n < 2 ^ 1023) : (ofNat n).Nearest n := by
  have h := ofRatio_nearest Nat.one_pos (by rwa [Nat.one_mul])
  rwa [Nat.cast_one, div_one] at h

theorem ofNat_not_negative {n : Nat} (hn : n < 2 ^ 1023) : (ofNat n).negative = false := by
  obtain ⟨s, r, h⟩ := exists_rounded Nat.one_pos (by rwa [Nat.one_mul] : n < 1 * 2 ^ 1023)
  exact h.negative

theorem div_nearest {x y : Binary64} (hx : x.negative = false) (hy : y.negative = false)
    (hpos : 0 < y.units) (hlt : x.units < y.units * 2 ^ 1023) :
    (x.div y).Nearest (x.value / y.value) := by
  have h := ofRatio_nearest hpos hlt
  rwa [← div_div_div_cancel_right₀ cast_one_pos.ne' (x.units : ℚ), ← value_of_not_negative hx,
    ← value_of_not_negative hy] at h

/-- A number of nanoseconds is rounded, and then a thousandth of it is. -/
theorem micros_nearest {n : Nat} (hn : n < 2 ^ 64) : (ofNat n).Nearest n ∧
    ((ofNat n).div (ofNat 1000)).Nearest ((ofNat n).value / 1000) := by
  have hn' : n < 2 ^ 1023 := Nat.lt_trans hn (by decide +kernel)
  have hunits : (ofNat 1000).units = 1000 * one := by decide +kernel
  have hnegative : (ofNat 1000).negative = false := by decide +kernel
  have hvalue : (ofNat 1000).value = 1000 := by
    rw [value_of_not_negative hnegative, hunits, Nat.cast_mul,
      mul_div_cancel_right₀ _ cast_one_pos.ne']
    rfl
  have hbound : (ofNat n).units < (ofNat 1000).units * 2 ^ 1023 := by
    have hle := units_ofRatio_le Nat.one_pos (by rwa [Nat.one_mul] : n < 1 * 2 ^ 1023)
    rw [Nat.mul_one] at hle
    rw [hunits]
    calc (ofRatio n 1).units ≤ 2 * (n * one) + 1 := hle
      _ ≤ 2 * (2 ^ 64 * one) + 1 := by gcongr
      _ < 1000 * one * 2 ^ 1023 := by decide +kernel
  have h := div_nearest (ofNat_not_negative hn') hnegative (by decide +kernel) hbound
  rw [hvalue] at h
  exact ⟨ofNat_nearest hn', h⟩

end MethodTrace.Binary64
