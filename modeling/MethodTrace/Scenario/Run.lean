import MethodTrace.Scenario.World

/-!
# Running a scenario

Steps happen one after the other, each on its thread. When a hook tells a first invocation, the next
script for the method is played, and its steps happen before the hook goes on. A thread that waits
for a script to end can do nothing else.
-/

namespace MethodTrace.Scenario

/-- The thread on which a step happens, and those that wait for it. At first nobody runs. -/
structure Seat where
  running : Option Nat
  waiting : List Nat

namespace Seat

def first : Seat := ⟨none, []⟩

/-- The place of the thread that a step names, or of the one that runs. -/
def place (s : Seat) (thread : Option Nat) : Nat := thread.getD (s.running.getD 0)

/-- The seat of a step at place `i`, unless the thread there waits. -/
def move? (s : Seat) (i : Nat) : Option Seat :=
  if i ∈ s.waiting then none
  else
    match s.running with
    | none => some ⟨some i, s.waiting⟩
    | some j => some ⟨some i, if i = j then s.waiting else j :: s.waiting⟩

end Seat

/-- Tells the first invocation of a method on a tracer, while the seated thread waits for it. -/
abbrev Teller := World → Seat → Nat → MethodId → World × Answer

namespace World

/-- Calls a hook once; with its result, what was told meanwhile. -/
def call (w : World) (tell : Teller) (seat : Seat) (who : OsThread) (i : Nat) (c : Call) :
    World × Except HookError Unit × List Answer :=
  match w.meet i who with
  | none => (w, .ok (), [])
  | some l =>
    match c.start who l with
    | (l, .returned result) => (w.part i who l, result, [])
    | (l, stage) =>
      let (w, answer) := tell (w.part i who l) seat i c.method
      match w.meet i who with
      | none => (w, .ok (), [answer])
      | some l =>
        match c.finish who l stage with
        | (l, .returned result) => (w.part i who l, result, [answer])
        | (l, _) => (w.part i who l, .ok (), [answer])

/-- Counts a refusal. -/
def count (w : World) (i : Nat) (result : Except HookError Unit) : World :=
  match w.tracers[i]? with
  | none => w
  | some t => w.setTracer i (t.countResult result)

/-- Calls a hook again and again; the last result is the reply, if it is to be told. -/
def callTimes (tell : Teller) (seat : Seat) (who : OsThread) (i : Nat) (c : Call) (counted : Bool) :
    Nat → World → Reply → List Answer → World × Reply × List Answer
  | 0, w, reply, fired => (w, reply, fired)
  | n + 1, w, _, fired =>
    let (w, result, told) := w.call tell seat who i c
    if counted then
      callTimes tell seat who i c counted n (w.count i result) .nothing (fired ++ told)
    else callTimes tell seat who i c counted n w (.hook result) (fired ++ told)

def hook (w : World) (tell : Teller) (seat : Seat) (who : OsThread) (i : Nat) (c : Call)
    (manner : Manner) (times : Nat) : World × Reply × List Answer :=
  match manner with
  | .counted => callTimes tell seat who i c true times w .nothing []
  | .told => callTimes tell seat who i c false times w .nothing []
  | .installed =>
    match w.installed with
    | none => (w, .nothing, [])
    | some i => callTimes tell seat who i c true times w .nothing []

def act (w : World) (tell : Teller) (seat : Seat) (who : OsThread) (i : Nat) :
    Action → World × Reply × List Answer
  | .hook c manner times => w.hook tell seat who i c manner times
  | action => let (w, reply) := w.perform who i action; (w, reply, [])

/-- The sight after a step that is not quiet. -/
def sightUnless (w : World) (quiet : Bool) (i : Nat) (who : OsThread) : World × Option Sight :=
  if quiet then (w, none) else w.sight i who

/-- Ends the thread at a place. -/
def endThread (w : World) (seat : Seat) (i : Nat) : World × Answer :=
  if i ∈ seat.waiting ∨ seat.running = some i then (w, .busy)
  else ({ w with crew := w.crew.finish i }, .ended (w.crew.lives i))

/-- The seat and the thread of a step, if the thread can do it. -/
def enter (w : World) (seat : Seat) (thread : Option Nat) : Option (World × Seat × OsThread) := do
  let i := seat.place thread
  let seat ← seat.move? i
  let (who, crew) ← w.crew.wake i
  return ({ w with crew := crew }, seat, who)

mutual

/-- Does one step. A step that panics has no answer. -/
def runStep (tell : Teller) (seat : Seat) (w : World) : Step → World × Option Answer
  | .panic => (w, none)
  | .endThread thread =>
    let (w, answer) := w.endThread seat (seat.place thread)
    (w, some answer)
  | .act thread i quiet action =>
    match w.enter seat thread with
    | none => (w, some .busy)
    | some (w, seat, who) =>
      let (w, reply, fired) := w.act tell seat who i action
      let (w, sight) := w.sightUnless quiet i who
      (w, some (.done reply fired sight))
  | .frame thread i quiet m body =>
    match w.enter seat thread with
    | none => (w, some .busy)
    | some (w, seat, who) =>
      let (w, _, fired) := w.hook tell seat who i ⟨.methodEntry, m, none⟩ .installed 1
      let (w, answers, panicked) := runSteps tell seat w body
      let (w, _, _) := w.hook tell seat who i ⟨.methodExit, m, none⟩ .installed 1
      if panicked then (w, none)
      else
        let (w, sight) := w.sightUnless quiet i who
        (w, some (.frame answers fired sight))

/-- Does steps up to the first that panics; with the answers, whether one did. -/
def runSteps (tell : Teller) (seat : Seat) (w : World) : List Step → World × List Answer × Bool
  | [] => (w, [], false)
  | step :: rest =>
    match runStep tell seat w step with
    | (w, none) => (w, [], true)
    | (w, some answer) =>
      let (w, answers, panicked) := runSteps tell seat w rest
      (w, answer :: answers, panicked)

end

/-- Tells a first invocation by playing a script. Every script is played once, so that there is no
more to play when `fuel` is used up, if it was the number of scripts. -/
def tell : Nat → Teller
  | 0, w, _, _, m => (w, .told m [] false)
  | fuel + 1, w, seat, i, m =>
    match w.takeScript i m with
    | none => (w, .told m [] false)
    | some (script, w) =>
      let (w, answers, panicked) := runSteps (tell fuel) seat w script.steps
      (w, .told m answers panicked)

def run (w : World) (steps : List Step) : World × List Answer :=
  let (w, answers, _) := runSteps (tell w.scriptsLeft) .first w steps
  (w, answers)

end World

end MethodTrace.Scenario
