import Mathlib.Data.Finset.Card
import Mathlib.Data.List.DropRight
import MethodTrace.Proofs.Methods
import MethodTrace.Tracer.Call

/-!
# Sets of methods in use

A set of methods is marked, asked, counted and cleared in any order. Marking a method reads its bit
and sets it if need be, and others may mark methods in between (`MethodSetMove.markLate`); what the
word was is looked at again when the bit is set, so only one of them is told to be the first. After
any moves the set answers as the finite set `marked` of the methods marked since it was last cleared
(`marked_methods_form_a_set`). The bits carry the proof: which of them are set is known after each
move (`MethodLog.Exact`), and the size follows from the members.
-/

namespace MethodTrace

inductive MethodSetMove where
  | mark (m : MethodId)
  /-- The rest of a marking that has read the bit of `m` before, when it was not set. -/
  | markLate (m : MethodId)
  | contains (m : MethodId)
  | size
  | clear

namespace MethodSetMove

def isClear : MethodSetMove → Bool
  | clear => true
  | mark _ | markLate _ | contains _ | size => false

def marks? : MethodSetMove → Option MethodId
  | mark m | markLate m => some m
  | contains _ | size | clear => none

/-- The methods marked since the last clearing. -/
def marked (moves : List MethodSetMove) : Finset MethodId :=
  ((moves.rtakeWhile fun x => !x.isClear).filterMap marks?).toFinset

variable (moves : List MethodSetMove) {x : MethodSetMove}

theorem marked_clear : marked (moves ++ [clear]) = ∅ := by
  rw [marked, List.rtakeWhile_concat_neg _ _ _ (by decide)]
  rfl

theorem mem_marked_concat (hx : x.isClear = false) (k : MethodId) :
    k ∈ marked (moves ++ [x]) ↔ k ∈ marked moves ∨ x.marks? = some k := by
  have hlast : ((moves ++ [x]).rtakeWhile fun x => !x.isClear) =
      (moves.rtakeWhile fun x => !x.isClear) ++ [x] :=
    List.rtakeWhile_concat_pos _ _ _ (by rw [hx]; rfl)
  simp only [marked, hlast, List.mem_toFinset, List.mem_filterMap, List.mem_append,
    List.mem_singleton, or_and_right, exists_or, exists_eq_left]

theorem marked_of_marks? {m : MethodId} (hx : x.marks? = some m) :
    marked (moves ++ [x]) = insert m (marked moves) := by
  have hclear : x.isClear = false := by
    cases x with
    | clear => cases hx
    | _ => rfl
  ext k
  rw [mem_marked_concat moves hclear, hx, Finset.mem_insert, Option.some.injEq, eq_comm, or_comm]

theorem marked_of_marks?_eq_none (hclear : x.isClear = false) (hx : x.marks? = none) :
    marked (moves ++ [x]) = marked moves := by
  ext k
  rw [mem_marked_concat moves hclear, hx]
  exact or_iff_left (by rintro ⟨⟩)

end MethodSetMove

open MethodSetMove (marked)

theorem MethodSet.size_eq_card {s : MethodSet} {S : Finset MethodId}
    (h : ∀ k, s.contains k = true ↔ k ∈ S) : s.size = S.card := by
  rw [size_eq_length S.nodup_toList fun k => (h k).trans Finset.mem_toList.symm, Finset.length_toList]

/-- A set, and the methods whose marking it has answered to be the first since it was last cleared. -/
structure MethodLog where
  set : MethodSet
  firsts : List MethodId

namespace MethodLog

def new : MethodLog := ⟨.empty, []⟩

/-- Notes how a marking of `m` is answered. -/
def heed (l : MethodLog) (m : MethodId) (answer : Bool × MethodSet) : MethodLog :=
  ⟨answer.2, l.firsts ++ if answer.1 then [m] else []⟩

def step (l : MethodLog) : MethodSetMove → MethodLog
  | .mark m => l.heed m (l.set.mark m)
  | .markLate m => l.heed m (l.set.put m)
  | .contains _ | .size => l
  | .clear => ⟨.empty, []⟩

def run (l : MethodLog) (moves : List MethodSetMove) : MethodLog := moves.foldl step l

theorem run_concat (l : MethodLog) (moves : List MethodSetMove) (x : MethodSetMove) :
    l.run (moves ++ [x]) = (l.run moves).step x := by
  rw [run, List.foldl_append]
  rfl

structure Exact (l : MethodLog) (S : Finset MethodId) : Prop where
  contains : ∀ k, l.set.contains k = true ↔ k ∈ S
  once : l.firsts.Nodup
  firsts : ∀ k, k ∈ l.firsts ↔ k ∈ S

namespace Exact
variable {l : MethodLog} {S : Finset MethodId}

theorem new : Exact .new ∅ where
  contains k := by simp [MethodLog.new]
  once := List.nodup_nil
  firsts k := by simp [MethodLog.new]

theorem put_eq_true_iff (h : l.Exact S) (m : MethodId) : (l.set.put m).1 = true ↔ m ∉ S := by
  rw [MethodSet.put_eq, Bool.not_eq_true', ← Bool.not_eq_true, h.contains]

theorem contains_put (h : l.Exact S) (m k : MethodId) :
    (l.set.put m).2.contains k = true ↔ k ∈ insert m S := by
  rw [MethodSet.put_eq, MethodSet.contains_insert_iff, h.contains, Finset.mem_insert, or_comm]

theorem put (h : l.Exact S) (m : MethodId) : Exact (l.heed m (l.set.put m)) (insert m S) := by
  by_cases hm : m ∈ S
  · -- another marking has been the first
    have hheed : l.heed m (l.set.put m) = ⟨(l.set.put m).2, l.firsts⟩ := by
      rw [heed, if_neg ((h.put_eq_true_iff m).not.mpr (not_not.mpr hm)), List.append_nil]
    rw [hheed]
    refine ⟨h.contains_put m, h.once, fun k => ?_⟩
    rw [Finset.insert_eq_of_mem hm, h.firsts]
  · have hheed : l.heed m (l.set.put m) = ⟨(l.set.put m).2, l.firsts.concat m⟩ := by
      rw [heed, if_pos ((h.put_eq_true_iff m).mpr hm), List.concat_eq_append]
    rw [hheed]
    refine ⟨h.contains_put m, h.once.concat ((h.firsts m).not.mpr hm), fun k => ?_⟩
    rw [List.concat_eq_append, List.mem_append, h.firsts, List.mem_singleton, Finset.mem_insert,
      or_comm]

theorem step {moves : List MethodSetMove} (h : l.Exact (marked moves)) (x : MethodSetMove) :
    (l.step x).Exact (marked (moves ++ [x])) := by
  cases x with
  | mark m =>
    rw [MethodSetMove.marked_of_marks? moves rfl, MethodLog.step, MethodSet.mark_eq_put]
    exact h.put m
  | markLate m =>
    rw [MethodSetMove.marked_of_marks? moves rfl]
    exact h.put m
  | contains m =>
    rw [MethodSetMove.marked_of_marks?_eq_none moves rfl rfl]
    exact h
  | size =>
    rw [MethodSetMove.marked_of_marks?_eq_none moves rfl rfl]
    exact h
  | clear =>
    rw [MethodSetMove.marked_clear]
    exact new

theorem run (moves : List MethodSetMove) : Exact (MethodLog.new.run moves) (marked moves) := by
  induction moves using List.reverseRecOn with
  | nil => exact new
  | append_singleton moves x ih =>
    rw [run_concat]
    exact ih.step x

theorem count_firsts (h : l.Exact S) (m : MethodId) : l.firsts.count m = if m ∈ S then 1 else 0 := by
  split
  · rename_i hm
    exact List.count_eq_one_of_mem h.once ((h.firsts m).mpr hm)
  · rename_i hm
    exact List.count_eq_zero.mpr ((h.firsts m).not.mpr hm)

end Exact

end MethodLog

/-- What a call does with the methods of its tracer is to mark its own. -/
theorem Call.invoke_eq_mark (c : Call) (t : Tracer) (epoch : UInt64) (slot : Slot) (o : Opening) :
    c.invoke t epoch slot o =
      let answer := t.invoked.mark c.method
      let t' := { t with invoked := answer.2 }
      if answer.1 && t.expandOnFirstInvoke && t.hasHandler then (t', .expanding epoch slot o)
      else (c.enter t' epoch slot o, .closing slot) := by
  rw [MethodSet.mark_eq_put, MethodSet.put_eq]
  rfl

/-- Whatever has been done to a set of methods, also if others come between the two steps of a marking,
it tells of each method whether it has been marked since the last clearing, how many have been, and of
each marking whether it is the first; and each method has a bit in one of the words there are. -/
theorem marked_methods_form_a_set (moves : List MethodSetMove) :
    let l := MethodLog.new.run moves
    let S := marked moves
    (∀ m, ((l.set.mark m).1 = true ↔ m ∉ S) ∧
      ∀ k, (l.set.mark m).2.contains k = true ↔ k ∈ insert m S) ∧
    (∀ m, ((l.set.put m).1 = true ↔ m ∉ S) ∧
      ∀ k, (l.set.put m).2.contains k = true ↔ k ∈ insert m S) ∧
    (∀ m, l.set.contains m = true ↔ m ∈ S) ∧
    l.set.size = S.card ∧
    (∀ m, l.firsts.count m = if m ∈ S then 1 else 0) ∧
    ∀ m, (MethodSet.word m).val = m.index / 64 ∧ m.index / 64 < l.set.words.toArray.size ∧
      (MethodSet.mask m).toNat = 2 ^ (m.index % 64) := by
  intro l S
  have h : l.Exact S := .run moves
  have hput (m : MethodId) : ((l.set.put m).1 = true ↔ m ∉ S) ∧
      ∀ k, (l.set.put m).2.contains k = true ↔ k ∈ insert m S :=
    ⟨h.put_eq_true_iff m, h.contains_put m⟩
  have hbit (m : MethodId) : m.index / 64 < l.set.words.toArray.size := by
    rw [l.set.words.size_toArray]
    exact (MethodSet.word m).isLt
  refine ⟨fun m => ?_, hput, h.contains, MethodSet.size_eq_card h.contains, h.count_firsts,
    fun m => ⟨rfl, hbit m, MethodSet.toNat_mask m⟩⟩
  rw [MethodSet.mark_eq_put]
  exact hput m

/-- Of two markings of one method that have both read its bit in time, one is the first. -/
example : (MethodLog.new.run [.markLate ⟨65535⟩, .mark ⟨3⟩, .markLate ⟨65535⟩]).firsts =
    [⟨65535⟩, ⟨3⟩] := by decide +kernel

end MethodTrace
