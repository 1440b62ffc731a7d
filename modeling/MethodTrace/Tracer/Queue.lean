import MethodTrace.Event.Record
import MethodTrace.Tracer.Refusal

/-!
# The queue of records

Hooks append to it, a collector takes all of it at once. A full queue drops records and counts them.
Suspension seals it at an epoch: what belongs to an earlier epoch is still let in. Control records
pass a full queue, though not a seal. Few signals wait for the collector; more would tell it nothing
new and are lost.
-/

namespace MethodTrace

inductive Signal where
  | nonEmpty
  | full
deriving DecidableEq

structure Queue where
  records : Array Record
  capacity : Nat
  /-- The seal: what belongs to this epoch or a later one is kept out. -/
  closedFrom : Option UInt64
  dropped : UInt64
  /-- The signals that wait, the oldest first. -/
  signals : List Signal

/-- What a collector takes: the records, and how many were dropped since the last time. -/
structure Drained where
  records : Array Record
  dropped : UInt64

namespace Queue

/-- How many signals can wait. -/
def signalRoom : Nat := 4

def new (capacity : Nat) : Queue := ⟨#[], capacity, none, 0, []⟩

def size (q : Queue) : Nat := q.records.size

def isClosed (q : Queue) : Bool := q.closedFrom.isSome

/-- Whether the seal keeps out what belongs to `epoch`. -/
def keepsOut (q : Queue) (epoch : UInt64) : Bool := q.closedFrom.any (· ≤ epoch)

def signal (q : Queue) (s : Signal) : Queue :=
  if q.signals.length < signalRoom then { q with signals := q.signals ++ [s] } else q

/-- The signal that is received next. -/
def waiting (q : Queue) : Option Signal := q.signals.head?

def receive (q : Queue) : Queue := { q with signals := q.signals.tail }

def push (q : Queue) (r : Record) : Queue := { q with records := q.records.push r }

/-! ### Records of hooks -/

/-- Whether a record of a hook that started in `epoch` is let in. -/
def verdict (q : Queue) (epoch : UInt64) : Except QueueError Unit :=
  if q.keepsOut epoch then .error .sealed
  else if q.capacity ≤ q.size then .error (.overflow q.capacity)
  else .ok ()

def drop (q : Queue) : Queue := { q with dropped := q.dropped + 1 }.signal .full

def signalIfFull (q : Queue) : Queue := if q.size = q.capacity then q.signal .full else q

/-- Appends a record of a hook that started in `epoch`, or counts it as dropped. -/
def append (q : Queue) (epoch : UInt64) (r : Record) : Queue :=
  match q.verdict epoch with
  | .ok _ => (q.push r).signalIfFull
  | .error (.overflow _) => q.drop
  | .error .sealed => q

/-- An epoch that no hook starts in: every seal keeps out what belongs to it. -/
def lastEpoch : UInt64 := 0xffffffffffffffff

/-! ### Control records -/

def controlVerdict (q : Queue) (epoch : UInt64) : Except QueueError Unit :=
  if q.keepsOut epoch then .error .sealed else .ok ()

def appendControl (q : Queue) (epoch : UInt64) (r : Record) : Queue :=
  if q.keepsOut epoch then q else q.push r

/-- Seals the queue behind `marker`, unless it is sealed. -/
def close (q : Queue) (epoch : UInt64) (marker : Record) : Queue :=
  if q.isClosed then q else { q with closedFrom := some epoch }.push marker

/-- Takes the seal off and appends `marker`, if there is a seal. -/
def reopen (q : Queue) (marker : Record) : Queue :=
  if q.isClosed then ({ q with closedFrom := none }.push marker).signal .nonEmpty else q

/-! ### The collector's side -/

def content (q : Queue) : Drained := ⟨q.records, q.dropped⟩

/-- What is left when the content has been taken. -/
def drain (q : Queue) : Queue := { q with records := #[], dropped := 0 }

/-- Signals that there is something to take, if there is. -/
def notify (q : Queue) : Queue := if q.records.isEmpty then q else q.signal .nonEmpty

/-- Discards all records; a seal stays. -/
def reset (q : Queue) (capacity : Nat) : Queue :=
  { q with records := #[], capacity := capacity, dropped := 0 }

end Queue

end MethodTrace
