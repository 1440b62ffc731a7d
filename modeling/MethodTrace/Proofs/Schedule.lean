import MethodTrace.Proofs.Rounds
import MethodTrace.Proofs.Solo
import MethodTrace.Workload.Run

/-!
# The order of a workload

A workload is run one batch after the other, and a collector may take the records after every batch.
That is one of the orders in which the workers may take their turns (`Workload.runs_schedule`), and it
leads to the same tracer (`Workload.tracer_schedule`).
-/

namespace MethodTrace

namespace Workload

/-- The moves of a call between whose steps nothing happens. -/
def solo (i : Nat) (c : Call) : List Move :=
  .call (worker i) c true :: List.replicate 6 (.advance (worker i))

def Round.moves (w : Workload) : Round → List Move
  | .batch i => w.batch.calls.flatMap (solo i)
  | .suspend => [.suspend]
  | .resume => [.resume]

/-- What a collector does after a round, if there is one. -/
def pause (collects : Bool) : List Move := if collects then [.drain] else []

def roundMoves (w : Workload) (collects : Bool) (rs : List Round) : List Move :=
  rs.flatMap fun r => r.moves w ++ pause collects

theorem roundMoves_append (w : Workload) (collects : Bool) (rs rs' : List Round) :
    w.roundMoves collects (rs ++ rs') = w.roundMoves collects rs ++ w.roundMoves collects rs' :=
  List.flatMap_append

theorem roundMoves_cons (w : Workload) (collects : Bool) (r : Round) (rs : List Round) :
    w.roundMoves collects (r :: rs) = r.moves w ++ pause collects ++ w.roundMoves collects rs :=
  rfl

/-- The moves of a workload in the order in which it is run. -/
def schedule (w : Workload) (collects : Bool) : List Move := w.roundMoves collects w.plan

/-! ### Batches -/

/-- To list who has been told makes no difference. -/
theorem Progress.call_fst (who : OsThread) (x : Local × Array MethodId) (c : Call) :
    (Progress.call who x c).1 =
      ⟨(c.run who x.1).1.tracer.countResult (c.run who x.1).2, (c.run who x.1).1.memory⟩ := by
  obtain ⟨l, expanded⟩ := x
  rw [Progress.call, Call.run]
  rcases c.start who l with ⟨l', stage⟩
  rcases hfinish : c.finish who l' stage with ⟨l'', stage'⟩
  cases stage with
  | returned result => rfl
  | _ =>
    simp only [hfinish]
    cases stage' <;> rfl

/-- Calls of a worker one after the other. -/
theorem run_solos (i : Nat) (cs : List Call) {m : Machine} (hidle : ∀ j, m.active j = [])
    (expanded : Array MethodId) :
    let m' := m.run (cs.flatMap (solo i))
    let l := (cs.foldl (Progress.call (worker i)) (⟨m.tracer, m.memory i⟩, expanded)).1
    m'.tracer = l.tracer ∧ m'.memory = Function.update m.memory i l.memory ∧
      (∀ j, m'.active j = []) ∧ m.Along Machine.Sequential (cs.flatMap (solo i)) := by
  induction cs generalizing m expanded with
  | nil => exact ⟨rfl, (Function.update_eq_self i m.memory).symm, hidle, trivial⟩
  | cons c cs ih =>
    have hcall := m.run_call (worker i) c true (hidle i)
    have hfst := Progress.call_fst (worker i) (⟨m.tracer, m.memory i⟩, expanded) c
    have hsequential : m.Along Machine.Sequential (solo i c) :=
      ⟨fun j _ => hidle j, Machine.along_of_forall fun x hx _ =>
        Machine.sequential_of_none (by rw [List.eq_of_mem_replicate hx]; rfl)⟩
    have hrun : m.run (solo i c) = (m.note i c).put i
        (Progress.call (worker i) (⟨m.tracer, m.memory i⟩, expanded) c).1 [] := by
      rw [hfst]
      exact hcall
    generalize hnext : Progress.call (worker i) (⟨m.tracer, m.memory i⟩, expanded) c = next at hrun
    obtain ⟨l, expanded'⟩ := next
    have hidle' (j : Nat) : (m.run (solo i c)).active j = [] := by
      rw [hrun]
      simp [Machine.put, Function.update_apply, hidle]
    obtain ⟨htracer, hmemory, hactive, halong⟩ := ih hidle' expanded'
    have hlocal : (⟨(m.run (solo i c)).tracer, (m.run (solo i c)).memory i⟩ : Local) = l := by
      rw [hrun]
      simp [Machine.put]
    have hothers : (m.run (solo i c)).memory = Function.update m.memory i l.memory := by
      rw [hrun]
      simp [Machine.put]
    rw [hlocal] at htracer hmemory
    rw [List.flatMap_cons, Machine.run_append, List.foldl_cons, hnext]
    refine ⟨htracer, ?_, hactive, Machine.along_append hsequential halong⟩
    rw [hmemory, hothers, Function.update_idem]

theorem Progress.control_collector (p : Progress) (f : Tracer → Except ControlError Tracer)
    (fault : ControlError → Fault) : (p.control f fault).collector = p.collector := by
  rw [Progress.control]
  split <;> rfl

/-- A collector goes along to the end. -/
theorem Progress.round_collector (w : Workload) (p : Progress) (r : Round) :
    (p.round w r).collector.isSome = p.collector.isSome := by
  have hcollect (p : Progress) : p.collect.collector.isSome = p.collector.isSome := by
    rw [Progress.collect]
    cases h : p.collector with
    | none => rw [h]
    | some c => rfl
  cases r with
  | batch i => exact hcollect _
  | suspend | resume => exact (hcollect _).trans (congrArg Option.isSome (p.control_collector ..))

/-- A machine that has come as far as a run of a workload. -/
structure Abreast (w : Workload) (p : Progress) (m : Machine) : Prop where
  tracer : m.tracer = p.tracer
  memory : ∀ i < w.threads, m.memory i = p.memories.getD i none
  size : p.memories.size = w.threads
  idle : ∀ i, m.active i = []

namespace Abreast
variable {w : Workload} {p : Progress} {m : Machine} {r : Round} {rs : List Round}

theorem start (w : Workload) (t : Tracer) (collector : Option Collector) :
    Abreast w (.start w t collector) (.new t) where
  tracer := rfl
  memory i hi := by simp [Machine.new, Progress.start, Array.getD, hi]
  size := Array.size_replicate
  idle _ := rfl

theorem batch (h : Abreast w p m) {i : Nat} (hi : i < w.threads) :
    Abreast w (p.batch w i) (m.run (w.batch.calls.flatMap (solo i))) := by
  obtain ⟨htracer, hmemory, hidle, -⟩ := run_solos i w.batch.calls h.idle p.expanded
  rw [h.tracer, h.memory i hi] at htracer hmemory
  refine ⟨htracer, fun j hj => ?_, ?_, hidle⟩
  · rw [hmemory, Function.update_apply]
    split
    · rename_i heq
      subst heq
      simp [Progress.batch, Array.getD, h.size, hj]
    · rename_i hne
      rw [h.memory j hj]
      simp [Progress.batch, Array.getD, h.size, hj, Ne.symm hne]
  · simp [Progress.batch, h.size]

theorem suspend (h : Abreast w p m) : Abreast w (p.control Tracer.suspend .suspend) m.suspend := by
  rw [Progress.control, Machine.suspend, h.tracer]
  cases p.tracer.suspend with
  | error e => exact ⟨h.tracer, h.memory, h.size, h.idle⟩
  | ok t => exact ⟨rfl, h.memory, h.size, h.idle⟩

theorem resume (h : Abreast w p m) : Abreast w (p.control Tracer.resume .resume) m.resume := by
  rw [Progress.control, Machine.resume, h.tracer]
  cases p.tracer.resume with
  | error e => exact ⟨h.tracer, h.memory, h.size, h.idle⟩
  | ok t => exact ⟨rfl, h.memory, h.size, h.idle⟩

theorem collect (h : Abreast w p m) : Abreast w p.collect (m.run (pause p.collector.isSome)) := by
  rw [Progress.collect]
  cases p.collector with
  | none => exact h
  | some c => exact ⟨congrArg Tracer.drain h.tracer, h.memory, h.size, h.idle⟩

theorem round (h : Abreast w p m) (hr : ∀ i, r = .batch i → i < w.threads) :
    Abreast w (p.round w r) (m.run (r.moves w ++ pause p.collector.isSome)) := by
  rw [Machine.run_append]
  cases r with
  | batch i => exact (h.batch (hr i rfl)).collect
  | suspend =>
    have hcollect := h.suspend.collect
    rwa [p.control_collector] at hcollect
  | resume =>
    have hcollect := h.resume.collect
    rwa [p.control_collector] at hcollect

theorem rounds (h : Abreast w p m) (hrs : ∀ r ∈ rs, ∀ i, r = .batch i → i < w.threads) :
    Abreast w (rs.foldl (Progress.round w) p) (m.run (w.roundMoves p.collector.isSome rs)) := by
  induction rs generalizing p m with
  | nil => exact h
  | cons r rs ih =>
    obtain ⟨hr, hrs⟩ := List.forall_mem_cons.mp hrs
    have hnext := ih (h.round hr) hrs
    rw [Progress.round_collector] at hnext
    rwa [roundMoves_cons, Machine.run_append]

end Abreast

theorem mem_shift {w : Workload} {n : Nat} {r : Round} (hr : r ∈ w.shift n) :
    ∃ i < w.threads, r = .batch i := by
  obtain ⟨i, hi, hr⟩ := List.mem_flatMap.mp hr
  exact ⟨i, List.mem_range.mp hi, (List.mem_replicate.mp hr).2⟩

theorem mem_plan {w : Workload} {r : Round} (hr : r ∈ w.plan) :
    (∃ i < w.threads, r = .batch i) ∨ r = .suspend ∨ r = .resume := by
  rw [plan] at hr
  split at hr
  · simp only [List.mem_append, List.mem_singleton] at hr
    rcases hr with (((hr | rfl) | hr) | rfl) | hr
    · exact .inl (mem_shift hr)
    · exact .inr (.inl rfl)
    · exact .inl (mem_shift hr)
    · exact .inr (.inr rfl)
    · exact .inl (mem_shift hr)
  · exact .inl (mem_shift hr)

/-- The tracer in the end is that of a machine whose moves are made in the order of the workload. -/
theorem tracer_schedule (w : Workload) (t : Tracer) (collector : Option Collector) :
    ((Machine.new t).run (w.schedule collector.isSome)).tracer = (w.run t collector).tracer := by
  refine ((Abreast.start w t collector).rounds fun r hr i hi => ?_).tracer
  subst hi
  rcases mem_plan hr with ⟨j, hj, heq⟩ | heq | heq
  · cases heq
    exact hj
  · cases heq
  · cases heq

/-! ### Turns -/

variable {w : Workload} {m : Machine}

theorem allows_of_mem {i : Nat} (hi : i < w.threads) {collects : Bool} {x : Move}
    (hx : x ∈ (Round.batch i).moves w ++ pause collects) : w.Allows x := by
  rcases List.mem_append.mp hx with hx | hx
  · obtain ⟨c, -, hx⟩ := List.mem_flatMap.mp hx
    rcases List.mem_cons.mp hx with rfl | hx
    · exact ⟨rfl, i, hi, rfl⟩
    · rw [List.eq_of_mem_replicate hx]
      trivial
  · cases collects with
    | false => cases hx
    | true =>
      rw [List.mem_singleton.mp hx]
      trivial

theorem run_pause (hidle : ∀ i, m.active i = []) (collects : Bool) :
    (∀ i, (m.run (pause collects)).active i = []) ∧
      m.Along Machine.Sequential (pause collects) := by
  cases collects with
  | false => exact ⟨hidle, trivial⟩
  | true => exact ⟨hidle, Machine.sequential_of_none rfl, trivial⟩

/-- Rounds start and end with no call in progress. -/
theorem run_rounds (rs : List Round) (hrs : ∀ r ∈ rs, ∃ i < w.threads, r = .batch i)
    (hidle : ∀ i, m.active i = []) (collects : Bool) :
    (∀ i, (m.run (w.roundMoves collects rs)).active i = []) ∧
      m.Along Machine.Sequential (w.roundMoves collects rs) := by
  induction rs generalizing m with
  | nil => exact ⟨hidle, trivial⟩
  | cons r rs ih =>
    obtain ⟨⟨i, hi, rfl⟩, hrest⟩ := List.forall_mem_cons.mp hrs
    obtain ⟨-, -, hbatch, halong⟩ := run_solos i w.batch.calls hidle #[]
    obtain ⟨hpause, hpauses⟩ := run_pause hbatch collects
    rw [← Machine.run_append] at hpause
    obtain ⟨hidle', halong'⟩ := ih hrest hpause
    rw [roundMoves_cons, Machine.run_append]
    exact ⟨hidle', Machine.along_append (Machine.along_append halong hpauses) halong'⟩

theorem callOf?_solos (i j : Nat) (cs : List Call) :
    (cs.flatMap (solo j)).filterMap (Move.callOf? i) = if j = i then cs else [] := by
  have hadvance : (List.replicate 6 (Move.advance (worker j))).filterMap (Move.callOf? i) = [] := rfl
  induction cs with
  | nil => exact (ite_self _).symm
  | cons c cs ih =>
    rw [List.flatMap_cons, solo, List.cons_append, List.filterMap_cons, List.filterMap_append, hadvance,
      List.nil_append, ih, Move.callOf?, worker]
    by_cases hj : j = i
    · simp [hj]
    · simp [hj]

theorem callOf?_round (i j : Nat) (collects : Bool) :
    ((Round.batch j).moves w ++ pause collects).filterMap (Move.callOf? i) =
      if j = i then w.batch.calls else [] := by
  have hpause : (pause collects).filterMap (Move.callOf? i) = [] := by cases collects <;> rfl
  rw [List.filterMap_append, hpause, List.append_nil]
  exact callOf?_solos i j w.batch.calls

/-- A worker's calls in a shift. -/
theorem callOf?_shift {i : Nat} (hi : i < w.threads) (n : Nat) (collects : Bool) :
    (w.roundMoves collects (w.shift n)).filterMap (Move.callOf? i) =
      (List.replicate n w.batch.calls).flatten := by
  have hworker (j : Nat) : (w.roundMoves collects (List.replicate n (.batch j))).filterMap
      (Move.callOf? i) = if j = i then (List.replicate n w.batch.calls).flatten else [] := by
    induction n with
    | zero => exact (ite_self _).symm
    | succ n ih =>
      rw [List.replicate_succ, roundMoves_cons, List.filterMap_append, callOf?_round, ih]
      split <;> rfl
  have hworkers (t : Nat) : (w.roundMoves collects ((List.range t).flatMap fun j =>
      List.replicate n (.batch j))).filterMap (Move.callOf? i) =
        if i < t then (List.replicate n w.batch.calls).flatten else [] := by
    induction t with
    | zero => rfl
    | succ t ih =>
      rw [List.range_succ, List.flatMap_append, List.flatMap_singleton, roundMoves_append,
        List.filterMap_append, ih, hworker t]
      by_cases hlt : i < t
      · rw [if_pos hlt, if_neg (Nat.ne_of_gt hlt), if_pos (Nat.lt_succ_of_lt hlt), List.append_nil]
      · by_cases heq : t = i
        · rw [if_neg hlt, if_pos heq, if_pos (by omega), List.nil_append]
        · rw [if_neg hlt, if_neg heq, if_neg (by omega), List.nil_append]
  exact (hworkers w.threads).trans (if_pos hi)

/-- A shift is a turn of all workers. -/
theorem turns_shift (hidle : ∀ i, m.active i = []) (n : Nat) (collects : Bool) :
    w.Turns n m (w.roundMoves collects (w.shift n)) := by
  obtain ⟨hrests, hsequential⟩ := run_rounds (w.shift n) (fun _ => mem_shift) hidle collects
  refine ⟨fun x hx => ?_, fun i hi => callOf?_shift hi n collects, hsequential, fun i _ => hrests i⟩
  obtain ⟨r, hr, hx⟩ := List.mem_flatMap.mp hx
  obtain ⟨i, hi, rfl⟩ := mem_shift hr
  exact allows_of_mem hi hx

/-- The collector may take the records first. -/
theorem Turns.pause_append {n : Nat} {xs : List Move} {collects : Bool}
    (h : w.Turns n (m.run (pause collects)) xs) : w.Turns n m (pause collects ++ xs) := by
  cases collects with
  | false => exact h
  | true =>
    exact ⟨List.forall_mem_cons.mpr ⟨trivial, h.moves⟩, h.order,
      ⟨Machine.sequential_of_none rfl, h.sequential⟩, h.idle⟩

/-- Workers may take their turns in the order of the workload. -/
theorem runs_schedule (w : Workload) (hidle : ∀ i, m.active i = []) (collects : Bool) :
    w.Runs m (w.schedule collects) := by
  have hrests (n : Nat) {m : Machine} (hidle : ∀ i, m.active i = []) (i : Nat) :
      (m.run (w.roundMoves collects (w.shift n))).active i = [] :=
    (run_rounds (w.shift n) (fun _ => mem_shift) hidle collects).1 i
  have hshift (n : Nat) {m : Machine} (hidle : ∀ i, m.active i = []) :
      w.Turns n m (pause collects ++ w.roundMoves collects (w.shift n)) :=
    (turns_shift (run_pause hidle collects).1 n collects).pause_append
  have hrest (n : Nat) {m : Machine} (hidle : ∀ i, m.active i = []) (i : Nat) :
      (m.run (pause collects ++ w.roundMoves collects (w.shift n))).active i = [] := by
    rw [Machine.run_append]
    exact hrests n (run_pause hidle collects).1 i
  rw [schedule, plan]
  split
  · rename_i hmidway
    have hsuspended (i : Nat) :
        (m.run (w.roundMoves collects (w.shift (w.iterations / 2)))).suspend.active i = [] := by
      rcases Machine.suspend_cases (m.run _) with heq | ⟨-, heq⟩ <;> rw [heq] <;>
        exact hrests (w.iterations / 2) hidle i
    have hrun := Runs.midway hmidway (turns_shift hidle (w.iterations / 2) collects)
      (hshift 1 hsuspended) (hshift (w.iterations - w.iterations / 2) fun i => by
        rcases Machine.resume_cases (Machine.run _ _) with heq | ⟨-, heq⟩ <;> rw [heq] <;>
          exact hrest 1 hsuspended i)
    simpa only [roundMoves_append, roundMoves_cons, Round.moves, List.append_assoc, List.nil_append,
      List.cons_append] using hrun
  · rename_i hthrough
    exact .through (Bool.not_eq_true _ ▸ hthrough) (turns_shift hidle _ collects)

end Workload

end MethodTrace
