import MethodTrace.Event.Basic
import MethodTrace.Settings.Basic
import MethodTrace.Tracer.MethodSet
import MethodTrace.Tracer.Queue
import MethodTrace.Tracer.Suspension
import MethodTrace.Tracer.Tally

/-!
# Tracers

All that the threads of a traced program share, and what is done to it from outside: suspend, resume
and reset all threads, take the records, look around. The calls that instrumented code makes are in
`Tracer.Call`.
-/

namespace MethodTrace

structure Tracer where
  captureReturns : Bool
  expandOnFirstInvoke : Bool
  /-- Whether somebody wants to be called when a method is invoked for the first time. -/
  hasHandler : Bool
  depthLimit : UInt32
  invoked : MethodSet
  quota : Quota
  queue : Queue
  suspension : Suspension
  roster : Roster
  tally : Tally
  /-- The next reading of the clock. -/
  clock : Timestamp

namespace Tracer

/-- A tracer with a number of its own, for settings that are valid. -/
def new (id : Nat) (s : Settings) (hasHandler : Bool) : Tracer where
  captureReturns := s.captureReturns
  expandOnFirstInvoke := s.expandOnFirstInvoke
  hasHandler := hasHandler
  depthLimit := s.depthLimit
  invoked := .empty
  quota := ⟨s.threadSlots⟩
  queue := .new s.bufferCapacity.toNat
  suspension := .new
  roster := .new id
  tally := .zero
  clock := ⟨0⟩

def modifyStack (t : Tracer) (s : Slot) (f : CallStack → CallStack) : Tracer :=
  { t with roster := t.roster.modify s f }

/-! ### Control -/

/-- The record of an event that concerns all threads. -/
def marker (t : Tracer) (k : Kind) : Record :=
  Event.encode ⟨k, .none, .all, t.clock, none⟩

/-- Stops all tracing. Hooks that have started go on to their end and keep their records. -/
def suspend (t : Tracer) : Except ControlError Tracer := do
  let (b, roster) ← t.suspension.suspend t.roster t.roster.slots
  let queue := t.queue.close b.epoch (t.marker .threadsSuspended)
  return { t with suspension := b, roster := roster, queue := queue, clock := t.clock.next }

def resume (t : Tracer) : Except ControlError Tracer := do
  let (b, roster) ← t.suspension.resume t.roster
  let queue := t.queue.reopen (t.marker .threadsResumed)
  return { t with suspension := b, roster := roster, queue := queue, clock := t.clock.next }

/-- Forgets all threads, invocations and records and sets new limits; only while suspended. -/
def reset (t : Tracer) (l : Settings.Limits) : Except ControlError Tracer :=
  if t.suspension.suspended then
    .ok { t with
      invoked := .empty
      roster := t.roster.clear
      quota := ⟨l.threadSlots⟩
      queue := t.queue.reset l.bufferCapacity.toNat
      depthLimit := l.depthLimit }
  else .error .notSuspended

def drain (t : Tracer) : Tracer := { t with queue := t.queue.drain }

def notify (t : Tracer) : Tracer := { t with queue := t.queue.notify }

def receive (t : Tracer) : Tracer := { t with queue := t.queue.receive }

/-- Keeps a thread out of tracing for good. -/
def exclude (t : Tracer) (thread : Nat) : Tracer × Memory :=
  let (r, memory) := t.roster.exclude thread
  ({ t with roster := r }, memory)

/-- The call stack of a thread, if it is registered; looking it up is remembered. -/
def look (t : Tracer) (thread : Nat) (memory : Memory) : Option CallStack × Memory :=
  match t.roster.consult thread memory with
  | (.registered s, memory) => (t.roster.stack? s, memory)
  | (_, memory) => (none, memory)

/-! ### Writing -/

def countRefused (t : Tracer) (e : HookError) : Tracer := { t with tally := t.tally.countRefused e }

/-- The record of a frame. -/
def frameRecord (t : Tracer) (no : ThreadNo) (k : Kind) (m : MethodId) (ret : Option ReturnValue) :
    Record :=
  Event.encode ⟨k, m, no, t.clock, if t.captureReturns then ret else none⟩

/-- Writes the record of a frame for a hook that started in `epoch`. -/
def write (t : Tracer) (epoch : UInt64) (no : ThreadNo) (k : Kind) (m : MethodId)
    (ret : Option ReturnValue) : Tracer :=
  let verdict := t.queue.verdict epoch
  let record := t.frameRecord no k m ret
  { t with
    queue := t.queue.append epoch record
    tally := t.tally.countAppended verdict
    clock := t.clock.next }

/-- Writes that a thread was registered. -/
def writeCreated (t : Tracer) (epoch : UInt64) (no : ThreadNo) : Tracer :=
  let verdict := t.queue.controlVerdict epoch
  { t with
    queue := t.queue.appendControl epoch (Event.encode ⟨.threadCreated, .none, no, t.clock, none⟩)
    tally := t.tally.countRegistered.countAppended verdict
    clock := t.clock.next }

/-- Whether frames at depth `d` are recorded. -/
def recordsDepth (t : Tracer) (d : UInt32) : Bool := d ≤ t.depthLimit

/-- Whether somebody is to be told when `m` is invoked now. -/
def expands (t : Tracer) (m : MethodId) : Bool :=
  !t.invoked.contains m && t.expandOnFirstInvoke && t.hasHandler

def recordInvocation (t : Tracer) (m : MethodId) : Tracer :=
  { t with invoked := t.invoked.insert m }

end Tracer

end MethodTrace
