import MethodTrace.Proofs.Orderly

/-!
# Calls that nothing interrupts

A call goes on from stage to stage and never back, so seven steps lead to its end, whether it pauses
or not (`after_seven`). Moves of one thread that nothing comes between are therefore `Call.run`, the
function that scenarios run (`run_call`).
-/

namespace MethodTrace

/-- How far a call has got. -/
def Stage.rank : Stage → Nat
  | called => 0
  | running _ => 1
  | enrolled .. => 2
  | cleared .. => 3
  | guarding .. => 4
  | expanding .. => 5
  | closing _ => 6
  | returned _ => 7

namespace Call
variable {c : Call} {who : OsThread} {l l' : Local} {stage stage' : Stage}

theorem Goes.rank_lt (h : c.Goes who l stage l' stage') (hover : stage.isOver = false) :
    stage.rank < stage'.rank := by
  cases h with
  | @act t memory epoch slot fresh =>
    rcases act_stage (c := c) t epoch slot fresh with hs | ⟨o, hs⟩ <;> rw [hs] <;> simp [Stage.rank]
  | ended => cases hover
  | _ => simp [Stage.rank]

/-- What `n` steps lead to, pauses or no pauses. -/
def after (c : Call) (who : OsThread) : Nat → Local × Stage → Local × Stage
  | 0, x => x
  | n + 1, x => c.after who n (c.advance who x.1 x.2)

theorem after_add (c : Call) (who : OsThread) (k n : Nat) (x : Local × Stage) :
    c.after who (k + n) x = c.after who n (c.after who k x) := by
  induction k generalizing x with
  | zero => rw [Nat.zero_add]; rfl
  | succ k ih =>
    rw [Nat.add_right_comm]
    exact ih _

theorem after_returned (c : Call) (who : OsThread) (n : Nat) (l : Local)
    (result : Except HookError Unit) :
    c.after who n (l, .returned result) = (l, .returned result) := by
  induction n with
  | zero => rfl
  | succ n ih => exact ih

/-- Every step leads further on. -/
theorem le_rank_after (c : Call) (who : OsThread) (n : Nat) (x : Local × Stage) :
    min 7 (x.2.rank + n) ≤ (c.after who n x).2.rank := by
  induction n generalizing x with
  | zero => exact Nat.min_le_right _ _
  | succ n ih =>
    cases hover : x.2.isOver with
    | true =>
      obtain ⟨l, stage⟩ := x
      cases stage with
      | returned result =>
        rw [after_returned]
        exact Nat.min_le_left _ _
      | _ => cases hover
    | false =>
      have hgoes : c.Goes who x.1 x.2 _ _ := c.goes_advance x.1 x.2
      have hlt := hgoes.rank_lt hover
      have := ih (c.advance who x.1 x.2)
      show min 7 (x.2.rank + (n + 1)) ≤ (c.after who n (c.advance who x.1 x.2)).2.rank
      omega

/-- Steps stop when they have been made or when the call pauses. -/
theorem steps_eq_after (c : Call) (who : OsThread) (n : Nat) (x : Local × Stage) :
    ∃ k ≤ n, c.steps who n x = c.after who k x ∧ (k = n ∨ (c.after who k x).2.paused = true) := by
  induction n generalizing x with
  | zero => exact ⟨0, Nat.le_refl _, rfl, .inl rfl⟩
  | succ n ih =>
    rw [steps]
    split
    · rename_i hp
      exact ⟨0, Nat.zero_le _, rfl, .inr hp⟩
    · obtain ⟨k, hk, heq, hpause⟩ := ih (c.advance who x.1 x.2)
      exact ⟨k + 1, Nat.succ_le_succ hk, heq, hpause.imp_left (congrArg Nat.succ)⟩

/-- A call comes to its end as `run` says. -/
theorem after_seven (c : Call) (who : OsThread) (l : Local) :
    c.after who 7 (l, .called) = ((c.run who l).1, .returned (c.run who l).2) := by
  obtain ⟨k, hk, hsteps, hpause⟩ := c.steps_eq_after who 6 (l, .called)
  have hrank := c.le_rank_after who k (l, .called)
  have hafter : ∀ n, k + n = 7 → c.after who 7 (l, .called) =
      c.after who n (c.after who k (l, .called)) := fun n hn => by rw [← hn, after_add]
  rw [run, start, hsteps]
  revert hrank hpause hafter
  generalize c.after who k (l, .called) = x
  intro hpause hrank hafter
  obtain ⟨l', stage⟩ := x
  cases stage with
  | returned result =>
    rw [hafter (7 - k) (by omega), after_returned]
  | closing slot =>
    rw [hafter (6 - k + 1) (by omega)]
    exact c.after_returned who _ _ _
  | expanding epoch slot o =>
    simp only [Stage.rank] at hrank
    rw [hafter (5 - k + 1 + 1) (by omega)]
    exact c.after_returned who _ _ _
  | _ =>
    rcases hpause with rfl | hpause
    · simp [Stage.rank] at hrank
    · cases hpause

end Call

namespace Machine
variable {m : Machine} {who : OsThread}

theorem run_advance_of_idle (h : m.active who.id = []) (n : Nat) :
    m.run (List.replicate n (.advance who)) = m := by
  have hstep : m.step (.advance who) = m := advance_of_idle h
  induction n with
  | zero => rfl
  | succ n ih => rw [List.replicate_succ, run_cons, hstep, ih]

/-- A thread whose only call goes on alone. -/
theorem run_advance (m : Machine) (who : OsThread) (n : Nat) (l : Local) (a : Activity)
    (hover : a.stage.isOver = false) :
    (m.put who.id l [a]).run (List.replicate n (.advance who)) =
      m.put who.id ⟨a.settle (a.call.after who n (l, a.stage)).1.tracer
          (a.call.after who n (l, a.stage)).2, (a.call.after who n (l, a.stage)).1.memory⟩
        (a.next (a.call.after who n (l, a.stage)).2) := by
  have goOn : ∀ (l : Local) (a : Activity), a.stage.isOver = false →
      a.settle l.tracer a.stage = l.tracer ∧ a.next a.stage = [a] := by
    rintro l ⟨c, counted, stage⟩ hover
    cases stage <;> first | exact ⟨rfl, rfl⟩ | cases hover
  induction n generalizing l a with
  | zero =>
    obtain ⟨hsettle, hnext⟩ := goOn l a hover
    rw [Call.after, hsettle, hnext]
    rfl
  | succ n ih =>
    have hstep : (m.put who.id l [a]).step (.advance who) = m.put who.id
        ⟨a.settle (a.call.advance who l a.stage).1.tracer (a.call.advance who l a.stage).2,
          (a.call.advance who l a.stage).1.memory⟩
        (a.next (a.call.advance who l a.stage).2) := by
      simp [step, advance, put, proceed]
    rw [List.replicate_succ, run_cons, hstep, Call.after]
    generalize a.call.advance who l a.stage = x
    obtain ⟨l', stage⟩ := x
    cases hover' : stage.isOver with
    | true =>
      cases stage with
      | returned result =>
        rw [Call.after_returned]
        exact run_advance_of_idle (by simp [put, Activity.next]) n
      | _ => cases hover'
    | false =>
      obtain ⟨hsettle, hnext⟩ := goOn l' { a with stage := stage } hover'
      have hmoved := ih l' { a with stage := stage } hover'
      have hsettle' : a.settle l'.tracer stage = l'.tracer := hsettle
      have hnext' : a.next stage = [{ a with stage := stage }] := hnext
      rw [hsettle', hnext']
      exact hmoved

/-- A call between whose steps nothing happens is a run of the call. -/
theorem run_call (m : Machine) (who : OsThread) (c : Call) (counted : Bool)
    (h : m.active who.id = []) :
    (m.call who c counted).run (List.replicate 6 (.advance who)) =
      let (l, result) := c.run who ⟨m.tracer, m.memory who.id⟩
      (m.note who.id c).put who.id
        ⟨if counted then l.tracer.countResult result else l.tracer, l.memory⟩ [] := by
  have hpush : (m.note who.id c).push who.id ⟨c, counted, .called⟩ =
      (m.note who.id c).put who.id ⟨m.tracer, m.memory who.id⟩ [⟨c, counted, .called⟩] := by
    simp [push, put, h]
  have hrun := (m.note who.id c).run_advance who 7 ⟨m.tracer, m.memory who.id⟩
    ⟨c, counted, .called⟩ rfl
  rw [c.after_seven, ← hpush, List.replicate_succ, run_cons] at hrun
  rw [call_eq m who c counted (ready_of_idle h)]
  exact hrun

end Machine

end MethodTrace
