import MethodTrace.Event.Basic
import MethodTrace.FileFault
import MethodTrace.Json.Document

/-!
# Timelines

Events in the form in which trace viewers read them. Entries and exits become the ends of slices on
the track of their thread, suspensions become instants, and every thread that occurs is named at the
end. Times count from the first event. A method's name is looked up when an event is added, a
thread's name when the timeline is written.
-/

namespace MethodTrace

inductive Phase where
  | begins
  | ends
  | instant
deriving DecidableEq

namespace Phase

def letter : Phase → String
  | begins => "B"
  | ends => "E"
  | instant => "i"

/-- Instants are shown across all tracks. -/
def scope : Phase → Option String
  | instant => some "g"
  | _ => none

end Phase

/-- What an event becomes; that a thread was registered is no entry of its own. -/
def Kind.phase : Kind → Option Phase
  | rootEntry | methodEntry | markerEntry => some .begins
  | rootExit | methodExit | markerExit => some .ends
  | threadsSuspended | threadsResumed => some .instant
  | threadCreated => none

def Kind.category : Kind → String
  | rootEntry | rootExit => "root"
  | methodEntry | methodExit => "method"
  | markerEntry | markerExit => "marker"
  | threadsSuspended | threadsResumed | threadCreated => "tracer"

namespace Timeline

structure Entry where
  phase : Phase
  category : String
  name : String
  thread : ThreadNo
  /-- Time since the first event. -/
  time : Timestamp
  ret : Option ReturnValue

end Timeline

structure Timeline where
  entries : Array Timeline.Entry
  methodNames : List (MethodId × String)
  threadNames : List (ThreadNo × String)
  /-- The numbers of the threads that occur, ascending. -/
  threads : List ThreadNo
  start : Option Timestamp

namespace Timeline

def empty : Timeline := ⟨#[], [], [], [], none⟩

def nameMethod (t : Timeline) (m : MethodId) (name : String) : Timeline :=
  { t with methodNames := (m, name) :: t.methodNames }

def nameThread (t : Timeline) (n : ThreadNo) (name : String) : Timeline :=
  { t with threadNames := (n, name) :: t.threadNames }

def methodName (t : Timeline) (m : MethodId) : String := (t.methodNames.lookup m).getD m.text

def threadName (t : Timeline) (n : ThreadNo) : String :=
  (t.threadNames.lookup n).getD s!"Thread {n.val.toNat}"

def size (t : Timeline) : Nat := t.entries.size

/-- Puts a number into an ascending list, unless it is there. -/
def insertThread (n : ThreadNo) : List ThreadNo → List ThreadNo
  | [] => [n]
  | m :: rest =>
    if n = m then m :: rest
    else if n.val < m.val then n :: m :: rest
    else m :: insertThread n rest

/-- The threads that occur once `e` has been added. -/
def threadsWith (e : Event) (threads : List ThreadNo) : List ThreadNo :=
  if e.kind = .threadCreated ∨ e.thread ≠ .all then insertThread e.thread threads else threads

/-- What is added for `e`, if anything. -/
def entry? (t : Timeline) (e : Event) : Option Entry :=
  e.kind.phase.map fun phase =>
    { phase := phase
      category := e.kind.category
      name := if e.kind.isControl then e.kind.name else t.methodName e.method
      thread := e.thread
      time := e.timestamp.since (t.start.getD e.timestamp)
      ret := e.ret }

def add (t : Timeline) (e : Event) : Timeline :=
  let entry := t.entry? e
  { t with
    entries := match entry with
      | some entry => t.entries.push entry
      | none => t.entries
    threads := threadsWith e t.threads
    start := some (t.start.getD e.timestamp) }

/-! ### Writing -/

inductive Error where
  | decode (e : DecodeError)
  | file (fault : FileFault)
  /-- The writer took only a part of the text. -/
  | write

def Error.message : Error → String
  | decode e => "Failed to decode trace record: " ++ e.message
  | file f => f.message
  | write => "failed to write whole buffer"

/-- A record that does not decode changes nothing. -/
def addRecord (t : Timeline) (r : Record) : Except Error Timeline :=
  match Event.decode r with
  | .ok e => .ok (t.add e)
  | .error e => .error (.decode e)

def returned : ReturnValue → Json
  | .bool b => .bool b
  | .char c => .string c.toString
  | .int i => .int i.toInt
  | .float x => .float x
  | .object id => .string ("object@0x" ++ String.ofList (Nat.toDigits 16 id.toNat))

/-- The members that every entry has. -/
def header (name category phase : String) (time : Binary64) (process : Nat) (thread : ThreadNo) :
    List (String × Json) :=
  [("name", .string name), ("cat", .string category), ("ph", .string phase), ("ts", .float time),
    ("pid", .int process), ("tid", .int thread.val.toNat)]

def Entry.toJson (process : Nat) (e : Entry) : Json :=
  .object (header e.name e.category e.phase.letter e.time.micros process e.thread ++
    (e.phase.scope.map fun s => ("s", .string s)).toList ++
    (e.ret.map fun r => ("args", .object [("return", returned r)])).toList)

/-- The entry that names the track of a thread. -/
def trackName (t : Timeline) (process : Nat) (n : ThreadNo) : Json :=
  .object (header "thread_name" "" "M" ⟨0⟩ process n ++
    [("args", .object [("name", .string (t.threadName n))])])

def timeUnit : String := "ms"

def toJson (t : Timeline) (process : Nat) : Json :=
  .object [
    ("traceEvents",
      .array (t.entries.toList.map (Entry.toJson process) ++ t.threads.map (t.trackName process))),
    ("displayTimeUnit", .string timeUnit)]

def text (t : Timeline) (process : Nat) : String := (t.toJson process).pretty

/-- Writes to something that takes only so many bytes. -/
def writeWithin (t : Timeline) (process room : Nat) : Except Error String :=
  let s := t.text process
  if s.utf8ByteSize ≤ room then .ok s else .error .write

end Timeline

end MethodTrace
