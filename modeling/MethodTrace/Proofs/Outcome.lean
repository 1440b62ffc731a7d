import MethodTrace.Proofs.Remembrance
import MethodTrace.Proofs.Writing

/-!
# What is seen of a run

Whoever makes a move gets to know what comes of it (`Machine.outcome`); between two moves anybody may
ask how things stand (`Machine.outlook`). Times and waiting signals are not looked at, and what is
counted over the whole life of a tracer only from some tally on.
-/

namespace MethodTrace

inductive Outcome where
  | nothing
  | returned (result : Except HookError Unit)
  /-- The first invocation of a method is told. -/
  | telling (method : MethodId)
  | control (result : Except ControlError Unit)
  /-- The records but for their times, and how many were dropped. -/
  | drained (records : List Record) (dropped : UInt64)
  | flag (b : Bool)
  | stack (s : Option CallStack)
deriving DecidableEq

/-- Whether a call has returned that was refused. -/
def Outcome.isRefusal : Outcome → Bool
  | returned (.error _) => true
  | _ => false

/-- What is known of a call at the stage that it has come to. -/
def Stage.outcome (c : Call) : Stage → Outcome
  | .returned result => .returned result
  | .expanding .. => .telling c.method
  | _ => .nothing

/-- What has been counted since a tally was taken. -/
def Tally.since (t t₀ : Tally) : Tally where
  written := t.written - t₀.written
  dropped := t.dropped - t₀.dropped
  sealedOut := t.sealedOut - t₀.sealedOut
  denied := t.denied - t₀.denied
  guarded := t.guarded - t₀.guarded
  suspended := t.suspended - t₀.suspended
  registered := t.registered - t₀.registered

structure Outlook where
  tally : Tally
  suspended : Bool
  depthLimit : UInt32
  slotsLeft : UInt32
  registered : Nat
  names : List (ThreadNo × Option String)
  invoked : MethodSet
  /-- The records in the queue but for their times. -/
  queued : List Record
  dropped : UInt64
  /-- What every thread would see if it looked at its own call stack. -/
  snapshots : Nat → Option CallStack

namespace Machine
variable {m : Machine}

def outcome (m : Machine) : Move → Outcome
  | .call who c _ =>
    if m.ready who.id then (c.advance who ⟨m.tracer, m.memory who.id⟩ .called).2.outcome c
    else .nothing
  | .advance who =>
    match m.active who.id with
    | [] => .nothing
    | a :: _ => (a.call.advance who ⟨m.tracer, m.memory who.id⟩ a.stage).2.outcome a.call
  | .suspend => .control (m.tracer.suspend.map fun _ => ())
  | .resume => .control (m.tracer.resume.map fun _ => ())
  | .reset l => .control ((m.tracer.reset l).map fun _ => ())
  | .drain => .drained m.tracer.written m.tracer.queue.dropped
  | .notify => .flag !m.tracer.queue.records.isEmpty
  | .look i => .stack (m.tracer.look i (m.memory i)).1
  | .receive | .exclude _ | .elsewhere .. => .nothing

def outcomes (m : Machine) : List Move → List Outcome
  | [] => []
  | x :: xs => m.outcome x :: (m.step x).outcomes xs

def outlook (m : Machine) (t₀ : Tally) : Outlook where
  tally := m.tracer.tally.since t₀
  suspended := m.tracer.suspension.suspended
  depthLimit := m.tracer.depthLimit
  slotsLeft := m.tracer.quota.remaining
  registered := m.tracer.roster.size
  names := m.tracer.roster.names
  invoked := m.tracer.invoked
  queued := m.tracer.written
  dropped := m.tracer.queue.dropped
  snapshots i := (m.tracer.look i (m.memory i)).1

theorem outcome_of_idle {who : OsThread} (hact : m.active who.id = []) :
    m.outcome (.advance who) = .nothing := by
  simp only [outcome, hact]

/-- The innermost call of a thread goes on, and something comes of it. -/
theorem advance_outcome {who : OsThread} {a : Activity} {rest : List Activity}
    (hact : m.active who.id = a :: rest) :
    ∃ l stage, a.call.Goes who ⟨m.tracer, m.memory who.id⟩ a.stage l stage ∧
      m.step (.advance who) =
        m.put who.id ⟨a.settle l.tracer stage, l.memory⟩ (a.next stage ++ rest) ∧
      m.outcome (.advance who) = stage.outcome a.call :=
  ⟨_, _, a.call.goes_advance _ _, by simp only [step, Machine.advance, hact, proceed],
    by simp only [outcome, hact]⟩

/-- A thread calls a hook, and something comes of it. -/
theorem call_outcome {who : OsThread} (c : Call) (counted : Bool) (hr : m.ready who.id = true) :
    ∃ l stage, c.Goes who ⟨m.tracer, m.memory who.id⟩ .called l stage ∧
      m.step (.call who c counted) = (m.note who.id c).put who.id
        ⟨(⟨c, counted, .called⟩ : Activity).settle l.tracer stage, l.memory⟩
        ((⟨c, counted, .called⟩ : Activity).next stage ++ m.active who.id) ∧
      m.outcome (.call who c counted) = stage.outcome c :=
  ⟨_, _, c.goes_advance _ _,
    by simp only [step, Machine.call, hr, ↓reduceIte, proceed, note_tracer, note_memory],
    by simp only [outcome, hr, ↓reduceIte]⟩

/-- How often a run resets all. -/
def resetsIn (m : Machine) : List Move → Nat
  | [] => 0
  | x :: xs => (if m.resets x then 1 else 0) + (m.step x).resetsIn xs

/-- After `n` resets. -/
theorem add_resetsIn_cons (m : Machine) (n : Nat) (x : Move) (xs : List Move) :
    n + m.resetsIn (x :: xs) =
      (if m.resets x then n + 1 else n) + (m.step x).resetsIn xs := by
  rw [resetsIn, ← Nat.add_assoc]
  split <;> rfl

theorem run_append (m : Machine) (xs ys : List Move) : m.run (xs ++ ys) = (m.run xs).run ys :=
  List.foldl_append ..

theorem resetsIn_append (m : Machine) (xs ys : List Move) :
    m.resetsIn (xs ++ ys) = m.resetsIn xs + (m.run xs).resetsIn ys := by
  induction xs generalizing m with
  | nil => exact (Nat.zero_add _).symm
  | cons x xs ih => simp only [List.cons_append, resetsIn, run_cons, ih, Nat.add_assoc]

/-- Whatever threads are denied for. -/
theorem Mindful.run {n : Nat} (h : m.Mindful n fun _ => True) (xs : List Move)
    (hn : n + m.resetsIn xs < UInt64.size) :
    (m.run xs).Mindful (n + m.resetsIn xs) fun _ => True := by
  induction xs generalizing m n with
  | nil => exact h
  | cons x xs ih =>
    rw [add_resetsIn_cons] at hn ⊢
    exact ih (h.step x (by omega) (fun _ _ => id) (fun _ _ => trivial)
      fun _ _ _ _ _ _ _ _ _ _ => trivial) hn

end Machine

end MethodTrace
