import Mathlib.Logic.Function.Basic
import MethodTrace.Tracer.Call

/-!
# Runs of a tracer

Threads call the hooks of one tracer. Their calls go on stage by stage and take turns in any order;
between two stages tracing may be suspended, resumed or reset, records may be drained, and threads
may look into the rosters of other tracers. While a call tells a first invocation, its thread may
call hooks again. `run_call`: moves that nothing comes between are `Call.run`.
-/

namespace MethodTrace

deriving instance DecidableEq for Call

/-- Whether a call has come to its end. -/
def Stage.isOver : Stage → Bool
  | .returned _ => true
  | _ => false

/-- A call in progress. Its refusal is counted, or told to the caller. -/
structure Activity where
  call : Call
  counted : Bool
  stage : Stage

/-- A call that has returned is over. -/
def Activity.next (a : Activity) : Stage → List Activity
  | .returned _ => []
  | stage => [{ a with stage := stage }]

/-- Counts the refusal of a call that has returned, if it is to be counted. -/
def Activity.settle (a : Activity) (t : Tracer) : Stage → Tracer
  | .returned result => if a.counted then t.countResult result else t
  | _ => t

/-- Suspends tracing for slots that have been read before. -/
def Tracer.suspendSlots (t : Tracer) (slots : List Slot) : Except ControlError Tracer := do
  let (b, roster) ← t.suspension.suspend t.roster slots
  let queue := t.queue.close b.epoch (t.marker .threadsSuspended)
  return { t with suspension := b, roster := roster, queue := queue, clock := t.clock.next }

structure Machine where
  tracer : Tracer
  /-- What every thread remembers of its last lookup. -/
  memory : Nat → Memory
  /-- The calls of every thread that are in progress, the innermost first. -/
  active : Nat → List Activity
  /-- The records that have left the queue, in the order in which it let them in. -/
  past : List Record
  /-- The calls that every thread has made, and whether tracing was suspended then. Those that it
  made while a first invocation was told are left out. -/
  journal : Nat → List (Bool × Call)
  /-- How often tracing has been suspended. -/
  suspensions : Nat

inductive Move where
  | call (who : OsThread) (c : Call) (counted : Bool)
  /-- The innermost call of a thread goes on to its next stage. -/
  | advance (who : OsThread)
  | suspend
  | resume
  | reset (limits : Settings.Limits)
  | drain
  | notify
  | receive
  | exclude (thread : Nat)
  /-- A thread looks at its own call stack. -/
  | look (thread : Nat)
  /-- A thread looks into another roster. -/
  | elsewhere (thread : Nat) (r : Recollection)

namespace Machine

def new (t : Tracer) : Machine := ⟨t, fun _ => none, fun _ => [], [], fun _ => [], 0⟩

/-- All records that the queue has let in. -/
def history (m : Machine) : List Record := m.past ++ m.tracer.queue.records.toList

/-- Whether a thread can call a hook. -/
def ready (m : Machine) (i : Nat) : Bool := (m.active i).head?.all (·.stage.paused)

theorem ready_of_idle {m : Machine} {i : Nat} (h : m.active i = []) : m.ready i = true := by
  rw [ready, h]
  rfl

/-- Puts back a tracer and what a thread remembers after a step of one of its calls, and the calls
of the thread that are left. -/
def put (m : Machine) (i : Nat) (l : Local) (calls : List Activity) : Machine :=
  { m with
    tracer := l.tracer
    memory := Function.update m.memory i l.memory
    active := Function.update m.active i calls }

/-- One step of a call, which is the innermost of its thread; `rest` are the thread's other calls. -/
def proceed (m : Machine) (who : OsThread) (a : Activity) (rest : List Activity) : Machine :=
  let (l, stage) := a.call.advance who ⟨m.tracer, m.memory who.id⟩ a.stage
  m.put who.id ⟨a.settle l.tracer stage, l.memory⟩ (a.next stage ++ rest)

/-- Notes a call of a thread that makes it by itself. -/
def note (m : Machine) (i : Nat) (c : Call) : Machine :=
  if (m.active i).isEmpty then
    { m with journal := Function.update m.journal i
              (m.journal i ++ [(m.tracer.suspension.suspended, c)]) }
  else m

/-- A thread calls a hook, which does the first step: it looks whether tracing is suspended. -/
def call (m : Machine) (who : OsThread) (c : Call) (counted : Bool) : Machine :=
  if m.ready who.id then (m.note who.id c).proceed who ⟨c, counted, .called⟩ (m.active who.id)
  else m

def advance (m : Machine) (who : OsThread) : Machine :=
  match m.active who.id with
  | [] => m
  | a :: rest => m.proceed who a rest

def suspend (m : Machine) : Machine :=
  match m.tracer.suspend with
  | .ok t => { m with tracer := t, suspensions := m.suspensions + 1 }
  | .error _ => m

/-- Suspends tracing for slots that have been read before. -/
def suspendSlots (m : Machine) (slots : List Slot) : Machine :=
  match m.tracer.suspendSlots slots with
  | .ok t => { m with tracer := t, suspensions := m.suspensions + 1 }
  | .error _ => m

/-- A suspension reads the slots and suspends with them at once. -/
theorem suspend_eq_suspendSlots (m : Machine) :
    m.suspend = m.suspendSlots m.tracer.roster.slots := rfl

def resume (m : Machine) : Machine :=
  match m.tracer.resume with
  | .ok t => { m with tracer := t }
  | .error _ => m

def reset (m : Machine) (l : Settings.Limits) : Machine :=
  match m.tracer.reset l with
  | .ok t => { m with tracer := t, past := m.history }
  | .error _ => m

def drain (m : Machine) : Machine := { m with tracer := m.tracer.drain, past := m.history }

def remember (m : Machine) (i : Nat) (memory : Memory) : Machine :=
  { m with memory := Function.update m.memory i memory }

def exclude (m : Machine) (i : Nat) : Machine :=
  { m with tracer := (m.tracer.exclude i).1 }.remember i (m.tracer.exclude i).2

/-- One move. Moves that are not possible change nothing. -/
def step (m : Machine) : Move → Machine
  | .call who c counted => m.call who c counted
  | .advance who => m.advance who
  | .suspend => m.suspend
  | .resume => m.resume
  | .reset l => m.reset l
  | .drain => m.drain
  | .notify => { m with tracer := m.tracer.notify }
  | .receive => { m with tracer := m.tracer.receive }
  | .exclude i => m.exclude i
  | .look i => m.remember i (m.tracer.look i (m.memory i)).2
  | .elsewhere i r => if r.roster = m.tracer.roster.id then m else m.remember i (some r)

def run (m : Machine) (moves : List Move) : Machine := moves.foldl step m

@[simp] theorem run_nil (m : Machine) : m.run [] = m := rfl

@[simp] theorem run_cons (m : Machine) (x : Move) (xs : List Move) :
    m.run (x :: xs) = (m.step x).run xs := rfl

section note
variable (m : Machine) (i : Nat) (c : Call)

@[simp] theorem note_tracer : (m.note i c).tracer = m.tracer := by unfold note; split <;> rfl

@[simp] theorem note_memory : (m.note i c).memory = m.memory := by unfold note; split <;> rfl

@[simp] theorem note_active : (m.note i c).active = m.active := by unfold note; split <;> rfl

@[simp] theorem note_past : (m.note i c).past = m.past := by unfold note; split <;> rfl

@[simp] theorem note_suspensions : (m.note i c).suspensions = m.suspensions := by
  unfold note; split <;> rfl

end note

/-- Every move of a run is made in a state that goes with it. -/
def Along (P : Machine → Move → Prop) : Machine → List Move → Prop
  | _, [] => True
  | m, x :: xs => P m x ∧ Along P (m.step x) xs

instance Along.decidable (P : Machine → Move → Prop) [∀ m x, Decidable (P m x)] :
    (m : Machine) → (xs : List Move) → Decidable (Along P m xs)
  | _, [] => isTrue trivial
  | m, x :: xs =>
    have := Along.decidable P (m.step x) xs
    inferInstanceAs (Decidable (P m x ∧ Along P (m.step x) xs))

theorem along_append {P : Machine → Move → Prop} {m : Machine} {xs ys : List Move}
    (h : m.Along P xs) (h' : (m.run xs).Along P ys) : m.Along P (xs ++ ys) := by
  induction xs generalizing m with
  | nil => exact h'
  | cons x xs ih => exact ⟨h.1, ih h.2 h'⟩

end Machine

end MethodTrace
