import MethodTrace.Collector
import MethodTrace.Workload.Basic

/-!
# Running a workload

Workers are run on one tracer, whose first invocations are listed. A collector may go along and take
the records after every batch.
-/

namespace MethodTrace.Workload

/-- Why a run went wrong; it goes on nevertheless. -/
inductive Fault where
  | suspend (e : ControlError)
  | resume (e : ControlError)
deriving DecidableEq

/-- What was being done. -/
def Fault.context : Fault → String
  | suspend _ => "Failed to suspend tracing"
  | resume _ => "Failed to resume tracing"

def Fault.cause : Fault → ControlError
  | suspend e | resume e => e

def Fault.message (f : Fault) : String := f.context ++ ": " ++ f.cause.message

structure Progress where
  tracer : Tracer
  /-- What every worker remembers. -/
  memories : Array Memory
  /-- The methods whose first invocation was told. -/
  expanded : Array MethodId
  collector : Option Collector
  /-- The first thing that went wrong. -/
  fault : Option Fault

namespace Progress

def start (w : Workload) (t : Tracer) (collector : Option Collector) : Progress :=
  ⟨t, Array.replicate w.threads none, #[], collector, none⟩

/-- Calls a hook on a thread, telling nobody but the list of first invocations. -/
def call (who : OsThread) (x : Local × Array MethodId) (c : Call) : Local × Array MethodId :=
  let (l, expanded) := x
  match c.start who l with
  | (l, .returned result) => (⟨l.tracer.countResult result, l.memory⟩, expanded)
  | (l, stage) =>
    match c.finish who l stage with
    | (l, .returned result) => (⟨l.tracer.countResult result, l.memory⟩, expanded.push c.method)
    | (l, _) => (l, expanded.push c.method)

/-- Lets a worker do one batch. -/
def batch (p : Progress) (w : Workload) (i : Nat) : Progress :=
  let start : Local := ⟨p.tracer, p.memories.getD i none⟩
  let (l, expanded) := w.batch.calls.foldl (call (worker i)) (start, p.expanded)
  { p with
    tracer := l.tracer
    memories := p.memories.setIfInBounds i l.memory
    expanded := expanded }

def control (p : Progress) (f : Tracer → Except ControlError Tracer)
    (fault : ControlError → Fault) : Progress :=
  match f p.tracer with
  | .ok t => { p with tracer := t }
  | .error e => { p with fault := p.fault.or (some (fault e)) }

/-- Lets the collector take the records, if there is one. -/
def collect (p : Progress) : Progress :=
  match p.collector with
  | none => p
  | some c =>
    { p with tracer := p.tracer.drain, collector := some (c.collect p.tracer.queue.content) }

def round (w : Workload) (p : Progress) : Round → Progress
  | .batch i => (p.batch w i).collect
  | .suspend => (p.control Tracer.suspend .suspend).collect
  | .resume => (p.control Tracer.resume .resume).collect

end Progress

def run (w : Workload) (t : Tracer) (collector : Option Collector) : Progress :=
  w.plan.foldl (Progress.round w) (.start w t collector)

end MethodTrace.Workload
