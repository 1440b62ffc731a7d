import MethodTrace.Workload.Basic

/-!
# The command line

Options have a long name, some a letter as well. An option's value stands in the next argument, or
after its name: `--depth=3`, `-d3`, `-d=3`; letters without values may share one dash. A value is
looked at when the next option comes, or at the end: so of two faults the later one is told if it is
an argument that nobody knows.
-/

namespace MethodTrace

structure Options where
  threads : UInt64
  depth : UInt32
  fanout : UInt32
  iterations : UInt32
  noMarker : Bool
  depthLimit : Option UInt32
  threadSlots : Option UInt32
  bufferCapacity : Option UInt64
  captureReturns : Bool
  settingsPath : Option String
  tracePath : Option String
  suspendMidway : Bool
  /-- How long a collector sleeps, in milliseconds. -/
  pollInterval : UInt64
  quiet : Bool
deriving DecidableEq

namespace CommandLine

def defaults : Options where
  threads := 4
  depth := 4
  fanout := 2
  iterations := 10
  noMarker := false
  depthLimit := none
  threadSlots := none
  bufferCapacity := none
  captureReturns := false
  settingsPath := none
  tracePath := none
  suspendMidway := false
  pollInterval := 10
  quiet := false

/-- Why a command line gives no options. -/
inductive Stop where
  | unknownArgument
  /-- A value is missing, or empty where it must not be. -/
  | noValue
  /-- A value is no number, or out of range. -/
  | badValue
  | repeated
  /-- A value for an option that takes none. -/
  | unwantedValue
  | help
deriving DecidableEq

def Stop.message : Stop → String
  | unknownArgument => "unknown argument"
  | noValue => "an option lacks its value"
  | badValue => "the value of an option is not valid"
  | repeated => "an option is used more than once"
  | unwantedValue => "an option that takes no value has one"
  | help => "help"

inductive Flag where
  | threads
  | depth
  | fanout
  | iterations
  | noMarker
  | depthLimit
  | threadSlots
  | bufferCapacity
  | captureReturns
  | config
  | exporting
  | suspendMidway
  | pollMs
  | quiet
  | help
deriving DecidableEq

namespace Flag

def all : List Flag :=
  [threads, depth, fanout, iterations, noMarker, depthLimit, threadSlots, bufferCapacity,
    captureReturns, config, exporting, suspendMidway, pollMs, quiet, help]

def long : Flag → String
  | threads => "threads"
  | depth => "depth"
  | fanout => "fanout"
  | iterations => "iterations"
  | noMarker => "no-marker"
  | depthLimit => "depth-limit"
  | threadSlots => "thread-slots"
  | bufferCapacity => "buffer-capacity"
  | captureReturns => "capture-returns"
  | config => "config"
  | exporting => "export"
  | suspendMidway => "suspend-midway"
  | pollMs => "poll-ms"
  | quiet => "quiet"
  | help => "help"

def letter? : Flag → Option Char
  | threads => some 't'
  | depth => some 'd'
  | iterations => some 'i'
  | config => some 'c'
  | quiet => some 'q'
  | help => some 'h'
  | _ => none

def takesValue : Flag → Bool
  | noMarker | captureReturns | suspendMidway | quiet | help => false
  | _ => true

def about : Flag → String
  | threads => "Worker threads that run the workload [default: 4]"
  | depth => "Depth of the call tree below a root [default: 4]"
  | fanout => "Calls made at each level of the call tree [default: 2]"
  | iterations => "Batches of every worker thread [default: 10]"
  | noMarker => "Do not enclose roots in a marker"
  | depthLimit => "Deepest frame that is recorded (overrides the settings file)"
  | threadSlots => "Threads that are traced (overrides the settings file)"
  | bufferCapacity => "Capacity of the event buffer in records (overrides the settings file)"
  | captureReturns => "Record return values"
  | config => "Settings file of the tracer (JSON)"
  | exporting => "File to write the trace to (JSON for trace viewers)"
  | suspendMidway => "Suspend tracing halfway and resume it after one batch"
  | pollMs => "How often the collector looks for records, in milliseconds [default: 10]"
  | quiet => "Print only errors"
  | help => "Print help"

def ofLong? (name : String) : Option Flag := all.find? (·.long = name)

def ofLetter? (c : Char) : Option Flag := all.find? (·.letter? = some c)

end Flag

def helpLine (f : Flag) : String :=
  (match f.letter? with | some c => "  -" ++ c.toString ++ ", " | none => "      ") ++
    "--" ++ f.long ++ (if f.takesValue then " <VALUE>" else "") ++ "\n          " ++ f.about

def helpText : String :=
  "Run a synthetic workload under the call tracer\n\nOptions:\n" ++
    String.intercalate "\n" (Flag.all.map helpLine)

/-! ### Values -/

/-- A number in decimal digits, possibly after a plus sign. -/
def readNat (cs : List Char) : Option Nat :=
  let ds := match cs with
    | '+' :: ds => ds
    | ds => ds
  if ds.isEmpty ∨ !ds.all Char.isDigit then none
  else some (ds.foldl (fun n c => 10 * n + (c.toNat - '0'.toNat)) 0)

def readU64 (s : String) : Except Stop UInt64 :=
  match readNat s.toList with
  | some n => if n < UInt64.size then .ok n.toUInt64 else .error .badValue
  | none => .error .badValue

/-- Here a minus sign is allowed, though only zero is in range after it. -/
def readU32 (s : String) : Except Stop UInt32 :=
  let n := match s.toList with
    | '-' :: '+' :: _ => none
    | '-' :: ds => (readNat ds).filter (· = 0)
    | cs => readNat cs
  match n with
  | some n => if n < UInt32.size then .ok n.toUInt32 else .error .badValue
  | none => .error .badValue

def readPath (s : String) : Except Stop String := if s.isEmpty then .error .noValue else .ok s

/-- The options with one more set. What a flag without a value is given is of no account. -/
def assign (o : Options) (value : String) : Flag → Except Stop Options
  | .threads => (readU64 value).map fun n => { o with threads := n }
  | .depth => (readU32 value).map fun n => { o with depth := n }
  | .fanout => (readU32 value).map fun n => { o with fanout := n }
  | .iterations => (readU32 value).map fun n => { o with iterations := n }
  | .noMarker => .ok { o with noMarker := true }
  | .depthLimit => (readU32 value).map fun n => { o with depthLimit := some n }
  | .threadSlots => (readU32 value).map fun n => { o with threadSlots := some n }
  | .bufferCapacity => (readU64 value).map fun n => { o with bufferCapacity := some n }
  | .captureReturns => .ok { o with captureReturns := true }
  | .config => (readPath value).map fun s => { o with settingsPath := some s }
  | .exporting => (readPath value).map fun s => { o with tracePath := some s }
  | .suspendMidway => .ok { o with suspendMidway := true }
  | .pollMs => (readU64 value).map fun n => { o with pollInterval := n }
  | .quiet => .ok { o with quiet := true }
  | .help => .error .help

/-! ### Arguments -/

/-- A flag that takes a value, with the value if it has come. -/
structure Pending where
  flag : Flag
  value : Option String

structure Reading where
  options : Options
  seen : List Flag
  pending : Option Pending

namespace Reading

def start : Reading := ⟨defaults, [], none⟩

/-- Sets what a flag says; a flag can be used once. -/
def set (r : Reading) (f : Flag) (value : String) : Except Stop Reading := do
  if f ∈ r.seen then throw .repeated
  let options ← assign r.options value f
  return { r with options := options, seen := f :: r.seen }

/-- Sets what has been waiting for the next flag. -/
def settle (r : Reading) : Except Stop Reading :=
  match r.pending with
  | none => .ok r
  | some ⟨_, none⟩ => .error .noValue
  | some ⟨f, some value⟩ => { r with pending := none }.set f value

/-- A flag, with the value that stands in the same argument, if one does. -/
def flag (r : Reading) (f : Flag) (attached : Option String) : Except Stop Reading := do
  let r ← r.settle
  match attached with
  | some value => r.set f value
  | none => if f.takesValue then return { r with pending := some ⟨f, none⟩ } else r.set f ""

/-- An argument after two dashes: a name, and a value after an equals sign. -/
def long (r : Reading) (cs : List Char) : Except Stop Reading :=
  let name := cs.takeWhile (· ≠ '=')
  let attached := match cs.dropWhile (· ≠ '=') with
    | [] => none
    | _ :: value => some (String.ofList value)
  match Flag.ofLong? (String.ofList name) with
  | none => .error .unknownArgument
  | some f => if attached.isSome ∧ !f.takesValue then .error .unwantedValue else r.flag f attached

/-- An argument after one dash: letters, of which the last may have a value. -/
def letters (r : Reading) : List Char → Except Stop Reading
  | [] => .ok r
  | c :: cs =>
    match Flag.ofLetter? c with
    | none => .error .unknownArgument
    | some f =>
      if f.takesValue then
        match cs with
        | [] => r.flag f none
        | '=' :: value => r.flag f (some (String.ofList value))
        | value => r.flag f (some (String.ofList value))
      else do (← r.flag f none).letters cs

/-- An argument that is no flag. -/
def word (r : Reading) (s : String) : Except Stop Reading :=
  match r.pending with
  | some ⟨f, none⟩ => .ok { r with pending := some ⟨f, some s⟩ }
  | _ => .error .unknownArgument

/-- Reads arguments. After two dashes alone there is nothing but words, and nobody wants those. -/
def arguments (r : Reading) : List String → Except Stop Reading
  | [] => r.settle
  | s :: rest =>
    match s.toList with
    | ['-', '-'] => if rest.isEmpty then r.settle else .error .unknownArgument
    | '-' :: '-' :: cs => do (← r.long cs).arguments rest
    | '-' :: c :: cs => do (← r.letters (c :: cs)).arguments rest
    | _ => do (← r.word s).arguments rest

end Reading

def parse (args : List String) : Except Stop Options := do
  return (← Reading.start.arguments args).options

end CommandLine

end MethodTrace
