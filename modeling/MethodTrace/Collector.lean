import MethodTrace.Timeline
import MethodTrace.Tracer.Basic

/-!
# Collectors

A collector takes what is in a tracer's queue, decodes it, counts it, and passes it on to a timeline
and to a listener, if there are any. It goes on without a listener that has hung up.
-/

namespace MethodTrace

/-- The way from a collector to a listener. -/
inductive Feed where
  | none
  /-- The events that wait for the listener. -/
  | open (events : Array Event)
  /-- The listener is gone, and the collector has not noticed. -/
  | hungUp

namespace Feed

/-- Passes an event on. Without a listener it is lost, and no other is passed on. -/
def send : Feed → Event → Feed
  | .open events, e => .open (events.push e)
  | _, _ => .none

/-- The events that wait for a listener, if there is one. -/
def events : Feed → Option (Array Event)
  | .open events => some events
  | _ => Option.none

/-- What is left when the listener has taken the events. -/
def taken : Feed → Feed
  | .open _ => .open #[]
  | f => f

def hangUp : Feed → Feed
  | .open _ => .hungUp
  | f => f

def hasListener : Feed → Bool
  | .open _ => true
  | _ => false

end Feed

/-- What a collector counts. The counters have no end here; those of 64 bits that they stand for hold
the same as long as each is below `UInt64.size`. -/
structure Collection where
  /-- How often there was something to take. -/
  batches : Nat
  records : Nat
  /-- How many records the queue said it dropped. -/
  dropped : Nat
  undecodable : Nat
  /-- The kinds that occurred and how often. -/
  kinds : List (Kind × Nat)

namespace Collection

def zero : Collection := ⟨0, 0, 0, 0, []⟩

def increment (k : Kind) : List (Kind × Nat) → List (Kind × Nat)
  | [] => [(k, 1)]
  | (i, n) :: rest => if i = k then (i, n + 1) :: rest else (i, n) :: increment k rest

def countKind (c : Collection) (k : Kind) : Collection := { c with kinds := increment k c.kinds }

def count (c : Collection) (k : Kind) : Nat := (c.kinds.lookup k).getD 0

end Collection

structure Collector where
  counts : Collection
  timeline : Option Timeline
  feed : Feed

namespace Collector

def new (timeline : Option Timeline) (listener : Bool) : Collector :=
  ⟨.zero, timeline, if listener then .open #[] else .none⟩

def process (c : Collector) (r : Record) : Collector :=
  let counts := { c.counts with records := c.counts.records + 1 }
  match Event.decode r with
  | .error _ => { c with counts := { counts with undecodable := counts.undecodable + 1 } }
  | .ok e =>
    { counts := counts.countKind e.kind
      timeline := c.timeline.map (·.add e)
      feed := c.feed.send e }

/-- Takes in what was drained. -/
def collect (c : Collector) (d : Drained) : Collector :=
  let c := { c with counts := { c.counts with dropped := c.counts.dropped + d.dropped.toNat } }
  if d.records.isEmpty then c
  else
    d.records.foldl process { c with counts := { c.counts with batches := c.counts.batches + 1 } }

/-- Gives the timeline the names of the tracer's threads. -/
def nameThreads (c : Collector) (t : Tracer) : Collector :=
  let name (l : Timeline) : ThreadNo × Option String → Timeline
    | (n, some s) => l.nameThread n s
    | (_, none) => l
  { c with timeline := c.timeline.map fun l => t.roster.names.foldl name l }

def giveTimeline (c : Collector) : Collector := { c with timeline := none }

end Collector

end MethodTrace
