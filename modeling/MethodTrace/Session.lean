import MethodTrace.CommandLine
import MethodTrace.Settings.Reader
import MethodTrace.Workload.Run

/-!
# A session at the command line

Options and the content of a settings file decide the settings of the tracer and the workload; the
workload runs while a collector takes the records; a trace file may be written; a report is printed.
Every failure is one line, what was being done before why it failed.
-/

namespace MethodTrace

inductive Failure where
  | load (path : String) (e : Settings.Error)
  | settings (e : Settings.Error)
  | noThreads
  | tooDeep
  | workload (f : Workload.Fault)
  | trace (path : String) (e : Timeline.Error)

namespace Failure

/-- What was being done, or all there is to say. -/
def context : Failure → String
  | load path _ => "Failed to load config from " ++ path
  | settings e => e.message
  | noThreads => "Invalid argument: --threads must be at least 1"
  | tooDeep => s!"Invalid argument: --depth must be at most {Workload.deepest}"
  | workload f => f.context
  | trace path _ => "Failed to write trace to " ++ path

def cause : Failure → Option String
  | load _ e => some e.message
  | workload f => some f.cause.message
  | trace _ e => some e.message
  | settings _ | noThreads | tooDeep => none

def message (f : Failure) : String := f.context ++ f.cause.elim "" (": " ++ ·)

/-- Whether a word occurs in a text. -/
def occurs (word : List Char) : List Char → Bool
  | [] => word.isEmpty
  | c :: cs => word.isPrefixOf (c :: cs) || occurs word cs

/-- Whether the text says, in capitals or not, that the user is to blame. -/
def blamesUser (context : String) : Bool :=
  ["invalid argument", "invalid configuration"].any fun s => occurs s.toList context.toLower.toList

def exitCode (f : Failure) : UInt8 := if blamesUser f.context then 2 else 1

end Failure

namespace Session

/-! ### Before the run -/

/-- What the command line says overrides what the file says. -/
def override (s : Settings) (o : Options) : Settings :=
  { s with
    depthLimit := o.depthLimit.getD s.depthLimit
    threadSlots := o.threadSlots.getD s.threadSlots
    bufferCapacity := o.bufferCapacity.getD s.bufferCapacity
    captureReturns := o.captureReturns || s.captureReturns }

/-- The settings of the tracer; `read` reads a file. -/
def settings (o : Options) (read : String → Except FileFault ByteArray) :
    Except Failure Settings := do
  let s ← match o.settingsPath with
    | none => pure Settings.default
    | some path => (Settings.ofFile (read path)).mapError (.load path)
  (override s o).check.mapError .settings

def workload (o : Options) : Except Failure Workload :=
  if o.threads = 0 then .error .noThreads
  else if Workload.deepest < o.depth.toNat then .error .tooDeep
  else
    .ok {
      threads := o.threads.toNat
      depth := o.depth.toNat
      fanout := o.fanout.toNat
      iterations := o.iterations.toNat
      useMarker := !o.noMarker
      suspendMidway := o.suspendMidway }

def prepare (o : Options) (read : String → Except FileFault ByteArray) :
    Except Failure (Settings × Workload) := do
  let s ← settings o read
  let w ← workload o
  return (s, w)

/-! ### The run -/

/-- The timeline of a workload, its methods named. -/
def timeline (w : Workload) : Timeline :=
  w.legend.foldl (fun t (m, name) => t.nameMethod m name) .empty

/-- What is left when the workload has finished and the collector has taken all records. -/
structure Finished where
  tracer : Tracer
  collector : Collector
  expanded : Array MethodId

def run (o : Options) (s : Settings) (w : Workload) : Except Failure Finished :=
  let collector := Collector.new (o.tracePath.map fun _ => timeline w) false
  let p := (w.run (.new 0 s true) (some collector)).collect
  match p.fault with
  | some f => .error (.workload f)
  | none => .ok ⟨p.tracer, p.collector.getD collector, p.expanded⟩

/-! ### After the run -/

/-- What to write, and where, if the user wants a trace. -/
def trace (o : Options) (f : Finished) : Option (String × Timeline) :=
  match o.tracePath, (f.collector.nameThreads f.tracer).timeline with
  | some path, some t => some (path, t)
  | _, _ => none

/-- What is printed once a trace has been written. -/
def traceReport (path : String) (t : Timeline) : String := s!"Wrote {t.size} events to {path}"

/-- A time with two places, in the largest unit of which it is at least one. -/
def duration (nanos : Nat) : String :=
  let (unit, name) :=
    if 1000000000 ≤ nanos then (1000000000, "s")
    else if 1000000 ≤ nanos then (1000000, "ms")
    else if 1000 ≤ nanos then (1000, "µs")
    else (1, "ns")
  let n := (nanos * 100 + unit / 2) / unit
  toString (n / 100) ++ "." ++ Decimal.padded 2 (n % 100) ++ name

def report (f : Finished) (elapsed : String) : List String :=
  let t := f.tracer.tally
  let c := f.collector.counts
  [s!"Workload finished in {elapsed}",
    s!"  threads traced:   {t.registered} (admission denied {t.denied} calls)",
    s!"  events written:   {t.written} (dropped {t.dropped}, sealed out {t.sealedOut})",
    s!"  events collected: {c.records} in {c.batches} batches",
    s!"  suspended calls:  {t.suspended}",
    s!"  methods expanded: {f.expanded.size} of {f.tracer.invoked.size} invoked"]

end Session

end MethodTrace
