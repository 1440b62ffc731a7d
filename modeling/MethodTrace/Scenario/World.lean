import MethodTrace.Scenario.Step
import MethodTrace.Thread.Crew

/-!
# The world of a scenario

A crew of threads, tracers with the scripts that wait for first invocations, and collectors, each of
one tracer. `World.perform` does everything that is not the call of a hook.
-/

namespace MethodTrace.Scenario

structure World where
  crew : Crew
  tracers : Array Tracer
  /-- For every tracer the scripts that have not been played. -/
  scripts : Array (List Script)
  /-- Collectors, each with its tracer. -/
  collectors : Array (Nat × Collector)
  installed : Option Nat

namespace World

/-- A world of tracers with settings and scripts; a tracer with no list of scripts tells nobody of
first invocations. -/
def new (threads : List (Option String)) (tracers : List (Settings × Option (List Script))) : World
    where
  crew := .ofNames threads
  tracers := (tracers.zipIdx.map fun ((s, scripts), i) => Tracer.new i s scripts.isSome).toArray
  scripts := (tracers.map fun (_, scripts) => scripts.getD []).toArray
  collectors := #[]
  installed := none

/-- A tracer as a thread meets it. -/
def meet (w : World) (i : Nat) (who : OsThread) : Option Local :=
  w.tracers[i]?.map fun t => ⟨t, w.crew.memory who⟩

/-- Puts back a tracer and what the thread remembers. -/
def part (w : World) (i : Nat) (who : OsThread) (l : Local) : World :=
  { w with
    tracers := w.tracers.setIfInBounds i l.tracer
    crew := w.crew.setMemory who l.memory }

def setTracer (w : World) (i : Nat) (t : Tracer) : World :=
  { w with tracers := w.tracers.setIfInBounds i t }

def setCollector (w : World) (i : Nat) (c : Nat × Collector) : World :=
  { w with collectors := w.collectors.setIfInBounds i c }

/-- How many scripts have not been played. -/
def scriptsLeft (w : World) : Nat := w.scripts.toList.foldr (fun s n => s.length + n) 0

/-- Takes the first script for a method that has not been played. -/
def takeScript (w : World) (i : Nat) (m : MethodId) : Option (Script × World) :=
  let scripts := w.scripts.getD i []
  (scripts.find? (·.method = m)).map fun s =>
    (s, { w with scripts := w.scripts.setIfInBounds i (scripts.eraseP (·.method = m)) })

def sight (w : World) (i : Nat) (who : OsThread) : World × Option Sight :=
  match w.meet i who with
  | none => (w, none)
  | some l =>
    let (stack, memory) := l.tracer.look who.id l.memory
    (w.part i who ⟨l.tracer, memory⟩, some ⟨stack, l.tracer.queue.size⟩)

def info (t : Tracer) : Info where
  tally := t.tally
  suspended := t.suspension.suspended
  depthLimit := t.depthLimit
  slotsLeft := t.quota.remaining
  registered := t.roster.size
  invoked := t.invoked.size
  names := t.roster.names
  signals := t.queue.signals.length

/-- Replaces a tracer by what a control operation makes of it. -/
def control (w : World) (i : Nat) (f : Tracer → Except ControlError Tracer) : World × Reply :=
  match w.tracers[i]? with
  | none => (w, .nothing)
  | some t =>
    match f t with
    | .ok t => (w.setTracer i t, .control (.ok ()))
    | .error e => (w, .control (.error e))

/-- Lets a collector take what is in its tracer's queue; with it, how many records. -/
def collect (w : World) (c : Nat) : World × Nat :=
  match w.collectors[c]? with
  | none => (w, 0)
  | some (i, collector) =>
    match w.tracers[i]? with
    | none => (w, 0)
    | some t =>
      let d := t.queue.content
      ((w.setTracer i t.drain).setCollector c (i, collector.collect d), d.records.size)

/-- Excludes a thread from a tracer. -/
def exclude (w : World) (i : Nat) (who : OsThread) : World :=
  match w.tracers[i]? with
  | none => w
  | some t =>
    let (t, memory) := t.exclude who.id
    w.part i who ⟨t, memory⟩

def onTracer (w : World) (i : Nat) (f : Tracer → World × Reply) : World × Reply :=
  match w.tracers[i]? with
  | none => (w, .nothing)
  | some t => f t

def onCollector (w : World) (c : Nat) (f : Nat → Collector → World × Reply) : World × Reply :=
  match w.collectors[c]? with
  | none => (w, .nothing)
  | some (i, collector) => f i collector

/-- Does what an action says, on a thread and for a tracer. Hooks are not called here. -/
def perform (w : World) (who : OsThread) (i : Nat) : Action → World × Reply
  | .hook .. => (w, .nothing)
  | .suspend => w.control i Tracer.suspend
  | .resume => w.control i Tracer.resume
  | .reset limits => w.control i (·.reset limits)
  | .exclude => (w.exclude i who, .nothing)
  | .drain => w.onTracer i fun t => (w.setTracer i t.drain, .drained t.queue.content)
  | .notify => w.onTracer i fun t => (w.setTracer i t.notify, .flag !t.queue.records.isEmpty)
  | .receive => w.onTracer i fun t => (w.setTracer i t.receive, .signal t.queue.waiting)
  | .isInvoked m => w.onTracer i fun t => (w, .flag (t.invoked.contains m))
  | .info => w.onTracer i fun t => (w, .info (info t))
  | .install =>
    match w.installed with
    | some _ => (w, .flag false)
    | none => ({ w with installed := some i }, .flag true)
  | .isInstalled => (w, .installed (w.installed.map (· == i)))
  | .newCollector timeline listener =>
    ({ w with collectors := w.collectors.push (i, .new timeline listener) },
      .index w.collectors.size)
  | .collect c => let (w, n) := w.collect c; (w, .index n)
  | .runCollector c =>
    w.onCollector c fun i _ => (((w.exclude i who).collect c).1, .nothing)
  | .counts c => w.onCollector c fun _ collector => (w, .counts collector.counts)
  | .takeEvents c =>
    w.onCollector c fun i collector =>
      (w.setCollector c (i, { collector with feed := collector.feed.taken }),
        .events collector.feed.events)
  | .hangUp c =>
    w.onCollector c fun i collector =>
      (w.setCollector c (i, { collector with feed := collector.feed.hangUp }),
        .flag collector.feed.hasListener)
  | .nameThreads c =>
    w.onCollector c fun i collector =>
      w.onTracer i fun t => (w.setCollector c (i, collector.nameThreads t), .nothing)
  | .takeTimeline c =>
    w.onCollector c fun i collector =>
      (w.setCollector c (i, collector.giveTimeline), .timeline collector.timeline)

end World

end MethodTrace.Scenario
