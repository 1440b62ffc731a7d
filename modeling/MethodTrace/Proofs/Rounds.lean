import Mathlib.Data.List.Nodup
import MethodTrace.Proofs.Batches
import MethodTrace.Proofs.Standstill

/-!
# Workloads at work

The workers of a workload on one machine. They do their batches in turns, in any order of their steps
(`Workload.Turns`); a suspension halfway comes when all of them have returned from their calls, and so
does the end of it, when each has done one batch more (`Workload.Runs`). In the end every worker's
journal is the workload's program, the batch amid the suspension being hushed (`Workload.Runs.course`).
-/

namespace MethodTrace

/-! ### Trees that are hushed as a whole -/

theorem heard_map (hushed : Bool) (cs : List Call) :
    heard (cs.map fun c => (hushed, c)) = if hushed then [] else cs := by
  induction cs with
  | nil => exact (ite_self _).symm
  | cons c cs ih => cases hushed <;> simp_all

namespace CallTree

mutual

/-- A tree all of whose hooks are hushed, or none. -/
def placed (hushed : Bool) : CallTree → PlacedCall
  | node f m ret children => .node f m ret hushed hushed (placedOf hushed children)

def placedOf (hushed : Bool) : List CallTree → List PlacedCall
  | [] => []
  | t :: ts => placed hushed t :: placedOf hushed ts

end

mutual

theorem hooks_placed (hushed : Bool) : (t : CallTree) →
    (t.placed hushed).hooks = t.calls.map fun c => (hushed, c)
  | node f m ret children => by
    rw [placed, PlacedCall.hooks, hooksOf_placedOf hushed children, calls_node, List.map_cons,
      List.map_append]
    rfl

theorem hooksOf_placedOf (hushed : Bool) : (ts : List CallTree) →
    PlacedCall.hooksOf (placedOf hushed ts) = (ts.flatMap calls).map fun c => (hushed, c)
  | [] => rfl
  | t :: ts => by
    rw [placedOf, PlacedCall.hooksOf, hooks_placed hushed t, hooksOf_placedOf hushed ts,
      List.flatMap_cons, List.map_append]

end

mutual

theorem running_placed_true : (t : CallTree) → (t.placed true).running = []
  | node f m ret children => by
    rw [placed, PlacedCall.running, Bool.or_self, if_pos rfl, runningOf_placedOf_true children]

theorem runningOf_placedOf_true : (ts : List CallTree) → PlacedCall.runningOf (placedOf true ts) = []
  | [] => rfl
  | t :: ts => by
    rw [placedOf, PlacedCall.runningOf, running_placed_true t, runningOf_placedOf_true ts,
      List.append_nil]

end

mutual

theorem running_placed_false : (t : CallTree) → (t.placed false).running = [t]
  | node f m ret children => by
    rw [placed, PlacedCall.running, Bool.or_self, if_neg Bool.false_ne_true,
      runningOf_placedOf_false children]

theorem runningOf_placedOf_false : (ts : List CallTree) →
    PlacedCall.runningOf (placedOf false ts) = ts
  | [] => rfl
  | t :: ts => by
    rw [placedOf, PlacedCall.runningOf, running_placed_false t, runningOf_placedOf_false ts,
      List.singleton_append]

end

mutual

theorem whole_placed (hushed root opened : Bool) : (t : CallTree) →
    (t.placed hushed).Whole root opened
  | node f m ret children => by
    refine ⟨fun hentry hexit => ?_, fun hentry hexit => ?_, wholeOf_placedOf hushed _ _ children⟩
    · rw [hentry] at hexit
      cases hexit
    · rw [hentry] at hexit
      cases hexit

theorem wholeOf_placedOf (hushed root opened : Bool) : (ts : List CallTree) →
    PlacedCall.WholeOf root opened (placedOf hushed ts)
  | [] => trivial
  | t :: ts => ⟨whole_placed hushed root opened t, wholeOf_placedOf hushed root opened ts⟩

end

theorem placedOf_replicate (hushed : Bool) (n : Nat) (t : CallTree) :
    placedOf hushed (List.replicate n t) = List.replicate n (t.placed hushed) := by
  induction n with
  | zero => rfl
  | succ n ih => rw [List.replicate_succ, placedOf, ih, List.replicate_succ]

end CallTree

namespace PlacedCall

theorem hooksOf_append (ps qs : List PlacedCall) : hooksOf (ps ++ qs) = hooksOf ps ++ hooksOf qs := by
  induction ps with
  | nil => rfl
  | cons p ps ih => rw [List.cons_append, hooksOf, hooksOf, ih, List.append_assoc]

theorem runningOf_append (ps qs : List PlacedCall) :
    runningOf (ps ++ qs) = runningOf ps ++ runningOf qs := by
  induction ps with
  | nil => rfl
  | cons p ps ih => rw [List.cons_append, runningOf, runningOf, ih, List.append_assoc]

theorem wholeOf_append {root opened : Bool} {ps qs : List PlacedCall} (hps : WholeOf root opened ps)
    (hqs : WholeOf root opened qs) : WholeOf root opened (ps ++ qs) := by
  induction ps with
  | nil => exact hqs
  | cons p ps ih => exact ⟨hps.1, ih hps.2⟩

end PlacedCall

/-! ### Moves of a workload -/

/-- The call that a thread makes with a move. -/
def Move.callOf? (i : Nat) : Move → Option Call
  | .call who c _ => if who.id = i then some c else none
  | _ => none

/-- Whether a refusal of the call that a move makes is counted. -/
def Move.isCounted : Move → Bool
  | call _ _ counted => counted
  | _ => true

namespace Machine
variable {m : Machine} {x : Move} {i : Nat}

/-- A thread calls a hook after its last one has returned. -/
def Sequential (m : Machine) (x : Move) : Prop := ∀ i ∈ x.caller?, m.active i = []

instance (m : Machine) (x : Move) : Decidable (m.Sequential x) :=
  inferInstanceAs (Decidable (∀ i ∈ x.caller?, m.active i = []))

theorem sequential_of_none (hx : x.caller? = none) : m.Sequential x := by
  intro i hi
  rw [hx] at hi
  cases hi

/-- Tracing is suspended while no call is in progress. -/
def Resting (m : Machine) (x : Move) : Prop := x.isSuspend = true → ∀ i, m.active i = []

theorem journal_step (hx : m.Sequential x) (i : Nat) : (m.step x).journal i =
    m.journal i ++ (x.callOf? i).toList.map fun c => (m.tracer.suspension.suspended, c) := by
  have hnone : x.callOf? i = none → (m.step x).journal i = m.journal i → (m.step x).journal i =
      m.journal i ++ (x.callOf? i).toList.map fun c => (m.tracer.suspension.suspended, c) := by
    intro hx heq
    rw [hx, heq, Option.toList_none, List.map_nil, List.append_nil]
  cases x with
  | call who c counted =>
    have hidle : m.active who.id = [] := hx who.id rfl
    obtain ⟨stage, hcall, -⟩ := call_eq_put (ready_of_idle hidle) c counted
    have hjournal : (m.step (.call who c counted)).journal = Function.update m.journal who.id
        (m.journal who.id ++ [(m.tracer.suspension.suspended, c)]) := by
      rw [step, hcall, note, hidle]
      rfl
    rw [hjournal, Move.callOf?]
    by_cases hi : who.id = i
    · rw [if_pos hi, ← hi, Function.update_self]
      rfl
    · rw [if_neg hi, Function.update_of_ne (Ne.symm hi)]
      exact (List.append_nil _).symm
  | advance who =>
    refine hnone rfl ?_
    rcases hact : m.active who.id with _ | ⟨a, rest⟩
    · rw [step, advance_of_idle hact]
    · obtain ⟨l, stage, -, heq⟩ := advance_goes hact
      rw [heq]
      rfl
  | suspend => exact hnone rfl (by rcases m.suspend_cases with heq | ⟨-, heq⟩ <;> rw [step, heq])
  | resume => exact hnone rfl (by rcases m.resume_cases with heq | ⟨-, heq⟩ <;> rw [step, heq])
  | reset l => exact hnone rfl (by rw [step, reset]; split <;> rfl)
  | elsewhere j r => exact hnone rfl (by rw [step]; split <;> rfl)
  | _ => exact hnone rfl rfl

/-- A suspension leaves the calls alone. -/
theorem suspend_running (hs : m.tracer.suspension.suspended = false) :
    m.suspend.tracer.suspension.suspended = true ∧ m.suspend.journal = m.journal ∧
      m.suspend.active = m.active ∧ m.suspend.suspensions = m.suspensions + 1 := by
  have heq := step_suspend_of_running hs
  rw [step] at heq
  rw [heq]
  exact ⟨rfl, rfl, rfl, rfl⟩

theorem resume_suspended (hs : m.tracer.suspension.suspended = true) :
    m.resume.tracer.suspension.suspended = false ∧ m.resume.journal = m.journal ∧
      m.resume.active = m.active ∧ m.resume.suspensions = m.suspensions := by
  have heq := step_resume_of_suspended hs
  rw [step] at heq
  rw [heq]
  exact ⟨rfl, rfl, rfl, rfl⟩

theorem along_of_forall {P : Machine → Move → Prop} {m : Machine} {xs : List Move}
    (h : ∀ x ∈ xs, ∀ m : Machine, P m x) : m.Along P xs := by
  induction xs generalizing m with
  | nil => trivial
  | cons x xs ih =>
    exact ⟨h x List.mem_cons_self m, ih fun y hy => h y (List.mem_cons_of_mem _ hy)⟩

theorem along_mono {P Q : Machine → Move → Prop} (h : ∀ m x, P m x → Q m x) {m : Machine}
    {xs : List Move} (hxs : m.Along P xs) : m.Along Q xs := by
  induction xs generalizing m with
  | nil => trivial
  | cons x xs ih => exact ⟨h m x hxs.1, ih hxs.2⟩

end Machine

namespace Workload
open CallTree

/-- What may happen while the workers do their batches. Nobody else calls a hook, and refusals are
counted. -/
def Allows (w : Workload) : Move → Prop
  | .call who _ counted => counted = true ∧ ∃ i < w.threads, who = worker i
  | .suspend | .resume | .reset _ | .exclude _ => False
  | .advance _ | .drain | .notify | .receive | .look _ | .elsewhere .. => True

instance Allows.decidable (w : Workload) : (x : Move) → Decidable (w.Allows x)
  | .call who _ counted =>
    inferInstanceAs (Decidable (counted = true ∧ ∃ i < w.threads, who = worker i))
  | .suspend | .resume | .reset _ | .exclude _ => isFalse id
  | .advance _ | .drain | .notify | .receive | .look _ | .elsewhere .. => isTrue trivial

/-- Every worker does `n` batches, the steps of their calls in any order. -/
structure Turns (w : Workload) (n : Nat) (m : Machine) (xs : List Move) : Prop where
  moves : ∀ x ∈ xs, w.Allows x
  order : ∀ i < w.threads,
    xs.filterMap (Move.callOf? i) = (List.replicate n w.batch.calls).flatten
  sequential : m.Along Machine.Sequential xs
  idle : ∀ i < w.threads, (m.run xs).active i = []

/-- The workers do all their batches, with a suspension halfway if there is to be one: all wait for
each other before and behind it, and amid it each does one batch. -/
inductive Runs (w : Workload) (m : Machine) : List Move → Prop
  | through {xs : List Move} (h : w.suspendMidway = false) (hxs : w.Turns w.iterations m xs) :
    Runs w m xs
  | midway {xs ys zs : List Move} (h : w.suspendMidway = true)
    (hxs : w.Turns (w.iterations / 2) m xs) (hys : w.Turns 1 (m.run xs).suspend ys)
    (hzs : w.Turns (w.iterations - w.iterations / 2) ((m.run xs).suspend.run ys).resume zs) :
    Runs w m (xs ++ .suspend :: (ys ++ .resume :: zs))

/-- The calls of a worker. -/
def program (w : Workload) : List PlacedCall :=
  if w.suspendMidway then
    List.replicate (w.iterations / 2) (w.batch.placed false) ++ w.batch.placed true ::
      List.replicate (w.iterations - w.iterations / 2) (w.batch.placed false)
  else List.replicate w.iterations (w.batch.placed false)

section program
variable (w : Workload)

theorem hooksOf_batches (hushed : Bool) (n : Nat) :
    PlacedCall.hooksOf (List.replicate n (w.batch.placed hushed)) =
      ((List.replicate n w.batch).flatMap calls).map fun c => (hushed, c) := by
  rw [← placedOf_replicate, hooksOf_placedOf]

/-- The batches of a worker that are heard. -/
theorem heard_program :
    heard (PlacedCall.hooksOf w.program) = (List.replicate w.iterations w.batch).flatMap calls := by
  rw [program]
  split
  · have hhalves : w.iterations = w.iterations / 2 + (w.iterations - w.iterations / 2) := by omega
    rw [PlacedCall.hooksOf_append, PlacedCall.hooksOf, hooks_placed, hooksOf_batches, hooksOf_batches,
      heard_append, heard_append, heard_map, heard_map, heard_map, if_neg Bool.false_ne_true,
      if_neg Bool.false_ne_true, if_pos rfl, List.nil_append, ← List.flatMap_append, ← List.replicate_add, ← hhalves]
  · rw [hooksOf_batches, heard_map, if_neg Bool.false_ne_true]

theorem running_program :
    PlacedCall.runningOf w.program = List.replicate w.iterations w.batch := by
  have hbatches (n : Nat) : PlacedCall.runningOf (List.replicate n (w.batch.placed false)) =
      List.replicate n w.batch := by
    rw [← placedOf_replicate, runningOf_placedOf_false]
  rw [program]
  split
  · have hhalves : w.iterations = w.iterations / 2 + (w.iterations - w.iterations / 2) := by omega
    rw [PlacedCall.runningOf_append, PlacedCall.runningOf, running_placed_true, hbatches, hbatches,
      List.nil_append, ← List.replicate_add, ← hhalves]
  · exact hbatches w.iterations

theorem whole_program : PlacedCall.WholeOf false false w.program := by
  have hbatches (n : Nat) :
      PlacedCall.WholeOf false false (List.replicate n (w.batch.placed false)) := by
    rw [← placedOf_replicate]
    exact wholeOf_placedOf ..
  rw [program]
  split
  · exact PlacedCall.wholeOf_append (hbatches _) ⟨whole_placed .., hbatches _⟩
  · exact hbatches w.iterations

/-- A worker's hooks are hushed that it calls amid the suspension. -/
theorem countP_program : (PlacedCall.hooksOf w.program).countP Prod.fst =
    if w.suspendMidway then w.batch.calls.length else 0 := by
  have hmap (hushed : Bool) (cs : List Call) :
      (cs.map fun c => (hushed, c)).countP Prod.fst = if hushed then cs.length else 0 := by
    rw [List.countP_map]
    cases hushed
    · exact congrFun List.countP_false cs
    · exact congrFun List.countP_true cs
  rw [program]
  split
  · rw [PlacedCall.hooksOf_append, PlacedCall.hooksOf, hooks_placed, hooksOf_batches, hooksOf_batches,
      List.countP_append, List.countP_append, hmap, hmap, hmap, if_neg Bool.false_ne_true,
      if_neg Bool.false_ne_true, if_pos rfl, Nat.zero_add, Nat.add_zero]
  · rw [hooksOf_batches, hmap, if_neg Bool.false_ne_true]

end program

namespace Turns
variable {w : Workload} {n : Nat} {m : Machine} {xs : List Move}

theorem calm_step {x : Move} (hx : w.Allows x) (m : Machine) :
    (m.step x).tracer.suspension = m.tracer.suspension ∧
      (m.step x).suspensions = m.suspensions := by
  cases x with
  | call who c counted =>
    rw [Machine.step, Machine.call]
    split
    · obtain ⟨l, stage, hgoes, heq⟩ :=
        (m.note who.id c).proceed_goes who ⟨c, counted, .called⟩ (m.active who.id)
      rw [heq]
      simpa [Machine.put] using hgoes.suspension
    · exact ⟨rfl, rfl⟩
  | advance who =>
    rcases hact : m.active who.id with _ | ⟨a, rest⟩
    · rw [Machine.step, Machine.advance_of_idle hact]
      exact ⟨rfl, rfl⟩
    · obtain ⟨l, stage, hgoes, heq⟩ := Machine.advance_goes hact
      rw [heq]
      simpa [Machine.put] using hgoes.suspension
  | elsewhere j r => rw [Machine.step]; split <;> exact ⟨rfl, rfl⟩
  | suspend | resume | reset | exclude => exact hx.elim
  | _ => exact ⟨rfl, rfl⟩

theorem calm (hx : ∀ x ∈ xs, w.Allows x) (m : Machine) :
    (m.run xs).tracer.suspension = m.tracer.suspension ∧
      (m.run xs).suspensions = m.suspensions := by
  induction xs generalizing m with
  | nil => exact ⟨rfl, rfl⟩
  | cons x xs ih =>
    obtain ⟨hx, hxs⟩ := List.forall_mem_cons.mp hx
    obtain ⟨hsuspension, hsuspensions⟩ := calm_step hx m
    obtain ⟨hsuspension', hsuspensions'⟩ := ih hxs (m.step x)
    exact ⟨hsuspension'.trans hsuspension, hsuspensions'.trans hsuspensions⟩

theorem journal_run (hx : ∀ x ∈ xs, w.Allows x) (hsequential : m.Along Machine.Sequential xs)
    (i : Nat) : (m.run xs).journal i = m.journal i ++
      (xs.filterMap (Move.callOf? i)).map fun c => (m.tracer.suspension.suspended, c) := by
  induction xs generalizing m with
  | nil => exact (List.append_nil _).symm
  | cons x xs ih =>
    obtain ⟨hx, hxs⟩ := List.forall_mem_cons.mp hx
    have hrun := ih (m := m.step x) hxs hsequential.2
    rw [(calm_step hx m).1, Machine.journal_step hsequential.1] at hrun
    rw [Machine.run_cons, hrun, List.append_assoc, ← List.map_append]
    congr 2
    rw [List.filterMap_cons]
    cases x.callOf? i <;> rfl

theorem journal (h : w.Turns n m xs) {i : Nat} (hi : i < w.threads) : (m.run xs).journal i =
    m.journal i ++ PlacedCall.hooksOf
      (List.replicate n (w.batch.placed m.tracer.suspension.suspended)) := by
  rw [journal_run h.moves h.sequential, h.order i hi, ← placedOf_replicate, hooksOf_placedOf,
    List.flatMap_replicate]

theorem caller_lt {x : Move} (hx : w.Allows x) : ∀ i ∈ x.caller?, i ∈ List.range w.threads := by
  intro i hi
  cases x with
  | call who c counted =>
    obtain ⟨-, j, hj, rfl⟩ := hx
    obtain rfl : j = i := Option.some.inj hi
    exact List.mem_range.mpr hj
  | _ => cases hi

theorem mem_calls (h : w.Turns n m xs) {who : OsThread} {c : Call} {counted : Bool}
    (hx : .call who c counted ∈ xs) : c ∈ w.batch.calls := by
  obtain ⟨-, i, hi, rfl⟩ := h.moves _ hx
  have hmem : c ∈ xs.filterMap (Move.callOf? i) :=
    List.mem_filterMap.mpr ⟨_, hx, if_pos rfl⟩
  rw [h.order i hi] at hmem
  obtain ⟨cs, hcs, hc⟩ := List.mem_flatten.mp hmem
  exact (List.mem_replicate.mp hcs).2 ▸ hc

theorem rests (h : w.Turns n m xs) (hm : ∀ i, m.active i = []) (i : Nat) :
    (m.run xs).active i = [] :=
  Machine.idle_run (List.range w.threads) (fun x hx => caller_lt (h.moves x hx)) (fun j _ => hm j)
    (fun j hj => h.idle j (List.mem_range.mp hj)) i

theorem resting (h : w.Turns n m xs) : m.Along Machine.Resting xs :=
  Machine.along_of_forall fun x hx _ hsuspend => by
    have := h.moves x hx
    cases x <;> first | exact this.elim | cases hsuspend

end Turns

/-- Workers call the hooks of batches only. -/
theorem Runs.mem_calls {w : Workload} {m : Machine} {xs : List Move} (h : w.Runs m xs)
    {who : OsThread} {c : Call} {counted : Bool} (hx : .call who c counted ∈ xs) :
    c ∈ w.batch.calls := by
  cases h with
  | through _ hxs => exact hxs.mem_calls hx
  | midway _ hxs hys hzs =>
    rcases List.mem_append.mp hx with hx | hx
    · exact hxs.mem_calls hx
    rcases List.mem_append.mp (List.mem_of_ne_of_mem Move.noConfusion hx) with hx | hx
    · exact hys.mem_calls hx
    · exact hzs.mem_calls (List.mem_of_ne_of_mem Move.noConfusion hx)

/-- What is known of a run of a workload when it is over. -/
structure Course (w : Workload) (m : Machine) (xs : List Move) : Prop where
  moves : ∀ x ∈ xs, w.Allows x ∨ x = .suspend ∨ x = .resume
  sequential : m.Along Machine.Sequential xs
  resting : m.Along Machine.Resting xs
  idle : ∀ i, (m.run xs).active i = []
  journal : ∀ i < w.threads, (m.run xs).journal i = m.journal i ++ PlacedCall.hooksOf w.program
  suspensions : (m.run xs).suspensions ≤ m.suspensions + 1

namespace Course
variable {w : Workload} {m : Machine} {xs : List Move}

theorem isReset (h : w.Course m xs) : ∀ x ∈ xs, x.isReset = false := by
  intro x hx
  rcases h.moves x hx with hallows | rfl | rfl
  · cases x <;> first | rfl | exact hallows.elim
  · rfl
  · rfl

theorem isCounted (h : w.Course m xs) : ∀ x ∈ xs, x.isCounted = true := by
  intro x hx
  rcases h.moves x hx with hallows | rfl | rfl
  · cases x with
    | call who c counted => exact hallows.1
    | _ => rfl
  · rfl
  · rfl

theorem caller_lt (h : w.Course m xs) : ∀ x ∈ xs, ∀ i ∈ x.caller?, i ∈ List.range w.threads := by
  intro x hx i hi
  rcases h.moves x hx with hallows | rfl | rfl
  · exact Turns.caller_lt hallows i hi
  · cases hi
  · cases hi

theorem included (h : w.Course m xs) (i : Nat) : ∀ x ∈ xs, x.excluded? ≠ some i := by
  intro x hx hi
  rcases h.moves x hx with hallows | rfl | rfl
  · cases x <;> first | exact hallows.elim | cases hi
  · cases hi
  · cases hi

theorem settled (h : w.Course m xs) (i : Nat) : m.Along (Machine.Settled i) xs :=
  Machine.along_mono (fun m x hrest hx => by rw [hrest hx i]; rfl) h.resting

theorem epochLeft (h : w.Course m xs) (i : Nat) : m.Along (Machine.EpochLeft i) xs :=
  Machine.along_mono (fun m x hrest hx => .inl (by rw [hrest hx i]; rfl)) h.resting

end Course

theorem Runs.course {w : Workload} {m : Machine} {xs : List Move} (h : w.Runs m xs)
    (hidle : ∀ i, m.active i = []) (hopen : m.tracer.suspension.suspended = false) :
    w.Course m xs := by
  cases h with
  | through hmidway hxs =>
    obtain ⟨-, hsuspensions⟩ := Turns.calm hxs.moves m
    refine ⟨fun x hx => .inl (hxs.moves x hx), hxs.sequential, hxs.resting, hxs.rests hidle,
      fun i hi => ?_, ?_⟩
    · rw [hxs.journal hi, hopen, program, hmidway]
      rfl
    · rw [hsuspensions]
      exact Nat.le_succ _
  | @midway xs ys zs hmidway hxs hys hzs =>
    have hopen₁ : (m.run xs).tracer.suspension.suspended = false :=
      (congrArg Suspension.suspended (Turns.calm hxs.moves m).1).trans hopen
    obtain ⟨hsuspended₂, hjournal₂, hactive₂, hcount₂⟩ := Machine.suspend_running hopen₁
    have hidle₂ : ∀ i, (m.run xs).suspend.active i = [] := by
      rw [hactive₂]
      exact hxs.rests hidle
    have hsuspended₃ : ((m.run xs).suspend.run ys).tracer.suspension.suspended = true :=
      (congrArg Suspension.suspended (Turns.calm hys.moves _).1).trans hsuspended₂
    obtain ⟨hopen₄, hjournal₄, hactive₄, hcount₄⟩ := Machine.resume_suspended hsuspended₃
    have hidle₄ : ∀ i, ((m.run xs).suspend.run ys).resume.active i = [] := by
      rw [hactive₄]
      exact hys.rests hidle₂
    have hrun : m.run (xs ++ .suspend :: (ys ++ .resume :: zs)) =
        ((m.run xs).suspend.run ys).resume.run zs := by
      rw [Machine.run_append, Machine.run_cons, Machine.run_append, Machine.run_cons]
      rfl
    refine ⟨fun x hx => ?_, ?_, ?_, ?_, fun i hi => ?_, ?_⟩
    · rcases List.mem_append.mp hx with hx | hx
      · exact .inl (hxs.moves x hx)
      rcases List.mem_cons.mp hx with rfl | hx
      · exact .inr (.inl rfl)
      rcases List.mem_append.mp hx with hx | hx
      · exact .inl (hys.moves x hx)
      rcases List.mem_cons.mp hx with rfl | hx
      · exact .inr (.inr rfl)
      · exact .inl (hzs.moves x hx)
    · exact Machine.along_append hxs.sequential ⟨Machine.sequential_of_none rfl,
        Machine.along_append hys.sequential ⟨Machine.sequential_of_none rfl, hzs.sequential⟩⟩
    · exact Machine.along_append hxs.resting ⟨fun _ => hxs.rests hidle,
        Machine.along_append hys.resting ⟨fun h => Bool.noConfusion h, hzs.resting⟩⟩
    · rw [hrun]
      exact hzs.rests hidle₄
    · rw [hrun, hzs.journal hi, hjournal₄, hys.journal hi, hjournal₂, hxs.journal hi, hopen,
        hsuspended₂, hopen₄, program, hmidway, if_pos rfl, PlacedCall.hooksOf_append,
        PlacedCall.hooksOf]
      simp only [List.append_assoc, List.replicate_one, PlacedCall.hooksOf, List.append_nil]
    · rw [hrun, (Turns.calm hzs.moves _).2, hcount₄, (Turns.calm hys.moves _).2, hcount₂,
        (Turns.calm hxs.moves m).2]

end Workload

end MethodTrace
