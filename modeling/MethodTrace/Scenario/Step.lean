import MethodTrace.Collector
import MethodTrace.Tracer.Call

/-!
# Steps of a scenario

What happens to some tracers and collectors on some threads, one step after the other, and what is
seen of it. While a first invocation is told, the steps of a script may happen.
-/

namespace MethodTrace.Scenario

/-- How a hook is called: on a tracer directly, on the tracer that is installed for the whole
program, or so that a refusal is told and not counted. -/
inductive Manner where
  | counted
  | installed
  | told
deriving DecidableEq

inductive Action where
  | hook (call : Call) (manner : Manner) (times : Nat)
  | suspend
  | resume
  | reset (limits : Settings.Limits)
  | exclude
  | drain
  | notify
  | receive
  | isInvoked (method : MethodId)
  | info
  | install
  | isInstalled
  | newCollector (timeline : Option Timeline) (listener : Bool)
  | collect (collector : Nat)
  /-- A collector that runs until told to stop, when it has been told so already. -/
  | runCollector (collector : Nat)
  | counts (collector : Nat)
  | takeEvents (collector : Nat)
  | hangUp (collector : Nat)
  | nameThreads (collector : Nat)
  | takeTimeline (collector : Nat)

/-- Without a thread, a step happens on the thread that is running. -/
inductive Step where
  | act (thread : Option Nat) (tracer : Nat) (quiet : Bool) (action : Action)
  /-- A method that is entered and left through the installed tracer, and what it does meanwhile. -/
  | frame (thread : Option Nat) (tracer : Nat) (quiet : Bool) (method : MethodId) (body : List Step)
  | endThread (thread : Option Nat)
  | panic

/-- What happens while the first invocation of a method is told. -/
structure Script where
  method : MethodId
  steps : List Step

structure Info where
  tally : Tally
  suspended : Bool
  depthLimit : UInt32
  slotsLeft : UInt32
  registered : Nat
  invoked : Nat
  names : List (ThreadNo × Option String)
  signals : Nat

/-- What a step gives back. -/
inductive Reply where
  | nothing
  | flag (b : Bool)
  | hook (result : Except HookError Unit)
  | control (result : Except ControlError Unit)
  | signal (s : Option Signal)
  | drained (d : Drained)
  | info (i : Info)
  /-- Whether a tracer is installed, and whether it is this one. -/
  | installed (same : Option Bool)
  | index (n : Nat)
  | counts (c : Collection)
  | events (e : Option (Array Event))
  | timeline (t : Option Timeline)

/-- What is seen after a step: the running thread's call stack, and how many records wait. -/
structure Sight where
  stack : Option CallStack
  queued : Nat

inductive Answer where
  /-- The thread of the step waits for a first invocation to be told, or there is none. -/
  | busy
  | ended (lived : Bool)
  /-- `fired` are the first invocations told during the step. -/
  | done (reply : Reply) (fired : List Answer) (sight : Option Sight)
  | frame (body : List Answer) (fired : List Answer) (sight : Option Sight)
  | told (method : MethodId) (steps : List Answer) (panicked : Bool)

end MethodTrace.Scenario
