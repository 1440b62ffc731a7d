import Mathlib.Algebra.BigOperators.Group.List.Basic
import Mathlib.Data.Nat.Bitwise
import MethodTrace.Tracer.MethodSet

/-!
# Sets of methods are sets

A method has a bit of its own: its word and the place in the word determine it (`word_inj`). So
inserting a method sets its bit and no other (`contains_insert`), and the size counts one more for a
method that was not in the set (`size_insert_of_not_contains`). Setting a bit once more changes
nothing, so marking inserts, whether or not the bit is read before (`put_eq`, `mark_eq_put`).
-/

namespace MethodTrace

namespace MethodSet
variable {s : MethodSet} {m m' : MethodId}

/-! ### Bits of words -/

theorem toNat_mask (m : MethodId) : (mask m).toNat = 2 ^ (m.index % 64) := by
  have hlt : m.index % 64 < 64 := Nat.mod_lt _ (by decide)
  have hplace : (m.index % 64).toUInt64.toNat = m.index % 64 :=
    UInt64.toNat_ofNat_of_lt' (Nat.lt_trans hlt (by decide))
  have hpow : 2 ^ (m.index % 64) < 2 ^ 64 := Nat.pow_lt_pow_right (by decide) hlt
  rw [mask, UInt64.toNat_shiftLeft, hplace, Nat.mod_eq_of_lt hlt, Nat.shiftLeft_eq]
  exact (Nat.mod_eq_of_lt (by simpa using hpow)).trans (Nat.one_mul _)

theorem testBit_mask (m : MethodId) (i : Nat) :
    (mask m).toNat.testBit i = decide (m.index % 64 = i) := by
  rw [toNat_mask, Nat.testBit_two_pow]

theorem testBit_insert_mask (w : UInt64) (m : MethodId) (i : Nat) :
    (w ||| mask m).toNat.testBit i = (w.toNat.testBit i || decide (m.index % 64 = i)) := by
  rw [UInt64.toNat_or, Nat.testBit_or, testBit_mask]

theorem contains_eq_testBit (s : MethodSet) (m : MethodId) :
    s.contains m = (s.words.get (word m)).toNat.testBit (m.index % 64) := by
  have hzero (w : UInt64) : (w &&& mask m != 0) = w.toNat.testBit (m.index % 64) := by
    cases hbit : w.toNat.testBit (m.index % 64) with
    | true =>
      rw [bne_iff_ne]
      intro h
      have hand : (w &&& mask m).toNat.testBit (m.index % 64) = true := by
        rw [UInt64.toNat_and, Nat.testBit_and, hbit, testBit_mask, decide_eq_true rfl]
        rfl
      rw [h] at hand
      simp at hand
    | false =>
      rw [bne_eq_false_iff_eq, ← UInt64.toNat_inj, UInt64.toNat_and]
      refine Nat.eq_of_testBit_eq fun i => ?_
      rw [Nat.testBit_and, testBit_mask]
      by_cases hi : m.index % 64 = i
      · rw [← hi, hbit]
        simp
      · simp [hi]
  exact hzero _

/-- No two methods share a bit. -/
theorem word_inj (hw : word m = word m') (hi : m.index % 64 = m'.index % 64) : m = m' := by
  have hdiv : m.index / 64 = m'.index / 64 := congrArg Fin.val hw
  have hindex : m.index = m'.index := by omega
  obtain ⟨⟨v⟩⟩ := m
  obtain ⟨⟨v'⟩⟩ := m'
  exact congrArg MethodId.mk (UInt16.toNat_inj.mp hindex)

/-! ### Members -/

@[simp] theorem contains_empty (m : MethodId) : empty.contains m = false := by
  have hword : empty.words.get (word m) = 0 := Vector.getElem_replicate (word m).isLt
  rw [contains_eq_testBit, hword]
  exact Nat.zero_testBit _

theorem insert_of_contains (h : s.contains m = true) : s.insert m = s := if_pos h

theorem insert_of_not_contains (h : s.contains m = false) : s.insert m = (s.put m).2 :=
  if_neg (by rw [h]; exact Bool.false_ne_true)

theorem words_insert (h : s.contains m = false) :
    (s.insert m).words =
      s.words.set (word m) (s.words.get (word m) ||| mask m) (word m).isLt := by
  rw [insert_of_not_contains h]
  rfl

theorem contains_insert (s : MethodSet) (m m' : MethodId) :
    (s.insert m).contains m' = (decide (m = m') || s.contains m') := by
  cases h : s.contains m with
  | true =>
    rw [insert_of_contains h]
    by_cases hm : m = m'
    · rw [← hm, h, Bool.or_true]
    · rw [decide_eq_false hm, Bool.false_or]
  | false =>
    rw [contains_eq_testBit, words_insert h, contains_eq_testBit s m']
    by_cases hw : word m = word m'
    · have hself : (s.words.set (word m) (s.words.get (word m) ||| mask m) (word m).isLt).get
          (word m') = s.words.get (word m') ||| mask m := by
        simp only [← hw]
        exact Vector.getElem_set_self _
      rw [hself, testBit_insert_mask, Bool.or_comm]
      congr 1
      rw [decide_eq_decide]
      exact ⟨word_inj hw, fun hm => by rw [hm]⟩
    · have hother : (s.words.set (word m) (s.words.get (word m) ||| mask m) (word m).isLt).get
          (word m') = s.words.get (word m') := Vector.getElem_set_ne _ _ fun hval => hw (Fin.ext hval)
      have hm : m ≠ m' := fun hm => hw (by rw [hm])
      rw [hother, decide_eq_false hm, Bool.false_or]

theorem contains_insert_iff : (s.insert m).contains m' = true ↔ s.contains m' = true ∨ m' = m := by
  rw [contains_insert, Bool.or_eq_true, decide_eq_true_iff, or_comm, eq_comm (a := m)]

/-! ### Marking -/

/-- A bit that is set already is not set again. -/
theorem or_mask_of_testBit {w : UInt64} (h : w.toNat.testBit (m.index % 64) = true) :
    w ||| mask m = w := by
  refine UInt64.toNat_inj.mp (Nat.eq_of_testBit_eq fun i => ?_)
  rw [testBit_insert_mask]
  by_cases hi : m.index % 64 = i
  · rw [← hi, h, Bool.true_or]
  · rw [decide_eq_false hi, Bool.or_false]

theorem put_eq (s : MethodSet) (m : MethodId) : s.put m = (!s.contains m, s.insert m) := by
  refine Prod.ext ?_ ?_
  · show (_ == _) = !(!(_ == _))
    exact (Bool.not_not _).symm
  · cases h : s.contains m with
    | true =>
      rw [insert_of_contains h]
      have hbit : s.words.get (word m) ||| mask m = s.words.get (word m) :=
        or_mask_of_testBit (by rwa [contains_eq_testBit] at h)
      have hwords : s.words.set (word m) (s.words.get (word m) ||| mask m) (word m).isLt = s.words := by
        rw [hbit]
        exact Vector.set_getElem_self _
      exact congrArg MethodSet.mk hwords
    | false => exact (insert_of_not_contains h).symm

/-- Reading the bit before only saves the writing. -/
theorem mark_eq_put (s : MethodSet) (m : MethodId) : s.mark m = s.put m := by
  cases h : s.contains m with
  | true => rw [mark, if_pos h, put_eq, h, insert_of_contains h, Bool.not_true]
  | false => rw [mark, if_neg (by rw [h]; exact Bool.false_ne_true)]

/-! ### Size -/

theorem weight_eq (w : UInt64) : weight w = (List.range 64).countP fun i => w.toNat.testBit i := by
  unfold weight
  split
  · rename_i hw
    rw [hw]
    simp
  · rfl

/-- A word with one more bit. -/
theorem weight_insert_mask {w : UInt64} (h : w.toNat.testBit (m.index % 64) = false) :
    weight (w ||| mask m) = weight w + 1 := by
  have hcount (l : List Nat) : (l.countP fun i => (w ||| mask m).toNat.testBit i) =
      (l.countP fun i => w.toNat.testBit i) + l.count (m.index % 64) := by
    induction l with
    | nil => rfl
    | cons i l ih =>
      rw [List.countP_cons, List.countP_cons, List.count_cons, ih, testBit_insert_mask]
      by_cases hi : m.index % 64 = i
      · subst hi
        simp [h]
        omega
      · have hi' : (i == m.index % 64) = false := beq_eq_false_iff_ne.mpr (Ne.symm hi)
        simp only [decide_eq_false hi, hi', Bool.or_false]
        split <;> simp
        omega
  rw [weight_eq, weight_eq, hcount, List.count_range, if_pos (Nat.mod_lt _ (by decide))]

theorem size_eq_sum (s : MethodSet) : s.size = (s.words.toList.map weight).sum := by
  rw [size]
  induction s.words.toList with
  | nil => rfl
  | cons w l ih => rw [List.foldr_cons, ih, List.map_cons, List.sum_cons]

@[simp] theorem size_empty : empty.size = 0 := by
  rw [size_eq_sum, List.sum_eq_zero]
  intro n hn
  obtain ⟨w, hw, rfl⟩ := List.mem_map.mp hn
  rw [empty, Vector.toList_replicate] at hw
  rw [List.eq_of_mem_replicate hw]
  rfl

theorem size_insert_of_not_contains (h : s.contains m = false) :
    (s.insert m).size = s.size + 1 := by
  have hlt : (word m).val < (s.words.toList.map weight).length := by simp
  have hword : weight (s.words.get (word m) ||| mask m) = weight (s.words.get (word m)) + 1 :=
    weight_insert_mask (by rwa [contains_eq_testBit] at h)
  have hsplit : (s.words.toList.map weight).sum =
      ((s.words.toList.map weight).take (word m)).sum + weight (s.words.get (word m)) +
        ((s.words.toList.map weight).drop (word m + 1)).sum := by
    rw [← List.sum_take_add_sum_drop _ (word m).val, List.drop_eq_getElem_cons hlt, List.sum_cons,
      List.getElem_map]
    simp only [Nat.add_assoc]
    rfl
  rw [size_eq_sum, words_insert h, size_eq_sum, Vector.toList_set, List.map_set, List.sum_set,
    if_pos hlt, hsplit, hword]
  omega

/-- A set is determined by its members. -/
theorem eq_of_contains {s s' : MethodSet} (h : ∀ m, s.contains m = s'.contains m) : s = s' := by
  suffices hwords : s.words = s'.words by
    obtain ⟨words⟩ := s
    obtain ⟨words'⟩ := s'
    rw [show words = words' from hwords]
  refine Vector.ext fun i hi => UInt64.toNat_inj.mp (Nat.eq_of_testBit_eq fun j => ?_)
  by_cases hj : j < 64
  · -- the method whose bit this is
    have hindex : (MethodId.mk (.ofNat (64 * i + j))).index = 64 * i + j :=
      UInt16.toNat_ofNat_of_lt' (by simp only [UInt16.size]; omega)
    have hword : word ⟨.ofNat (64 * i + j)⟩ = ⟨i, hi⟩ := by
      refine Fin.ext ?_
      show MethodId.index _ / 64 = i
      omega
    have hbit := h ⟨.ofNat (64 * i + j)⟩
    rw [contains_eq_testBit, contains_eq_testBit, hword, hindex, Nat.mul_add_mod,
      Nat.mod_eq_of_lt hj] at hbit
    exact hbit
  · have hsmall (w : UInt64) : w.toNat.testBit j = false :=
      Nat.testBit_lt_two_pow (Nat.lt_of_lt_of_le w.toNat_lt (Nat.pow_le_pow_right (by decide) (by omega)))
    rw [hsmall, hsmall]

/-- The size of a set whose members are listed. -/
theorem size_eq_length {ks : List MethodId} (hnodup : ks.Nodup)
    (h : ∀ m, s.contains m = true ↔ m ∈ ks) : s.size = ks.length := by
  have hlist (l : List MethodId) (hl : l.Nodup) : ∃ s : MethodSet,
      (∀ m, s.contains m = true ↔ m ∈ l) ∧ s.size = l.length := by
    induction l with
    | nil => exact ⟨empty, by simp, size_empty⟩
    | cons k l ih =>
      obtain ⟨hk, hl⟩ := List.nodup_cons.mp hl
      obtain ⟨s, hmem, hsize⟩ := ih hl
      have hnew : s.contains k = false := Bool.eq_false_iff.mpr fun hc => hk ((hmem k).mp hc)
      refine ⟨s.insert k, fun m => ?_, ?_⟩
      · rw [contains_insert_iff, hmem, List.mem_cons, or_comm]
      · rw [size_insert_of_not_contains hnew, hsize, List.length_cons]
  obtain ⟨s', hmem, hsize⟩ := hlist ks hnodup
  have heq : s = s' := eq_of_contains fun m => by rw [Bool.eq_iff_iff, h m, hmem m]
  rw [heq, hsize]

end MethodSet

end MethodTrace
