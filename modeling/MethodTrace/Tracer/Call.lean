import MethodTrace.Tracer.Basic

/-!
# Calls of hooks

Instrumented code calls a hook at every entry and exit. A call goes through stages: it notes the
epoch, finds or gets its thread's slot, looks whether it is in a traced subtree, takes the guard,
acts, and drops the guard. `Call.advance` makes one step of a call; calls of several threads may
take turns between any two steps. While a call is `expanding`, whoever wants to hear of first
invocations is being told; anything may happen before the next step.

A frame's depth counts from 1 at the outermost frame. Entries and exits are written for frames down
to the depth limit, but the stack is kept for all of them.
-/

namespace MethodTrace

inductive Hook where
  | rootEntry
  | rootExit
  | methodEntry
  | methodExit
  | markerEntry
  | markerExit
deriving DecidableEq

namespace Hook

/-- Whether the hook registers its thread if need be. -/
def enrolls : Hook → Bool
  | rootEntry | markerEntry => true
  | _ => false

/-- Whether the hook has anything to do on a thread with stack `s`. A root's exit is a method's: the
stack tells which of them it is. -/
def concerns (h : Hook) (s : CallStack) : Bool :=
  match h with
  | rootEntry | markerEntry => true
  | methodEntry | methodExit | rootExit => s.hasRoot
  | markerExit => s.inGraph

end Hook

structure Call where
  hook : Hook
  method : MethodId
  ret : Option ReturnValue

/-- As what an entry pushes its frame: a root with no root above it, a root or method below an
active root, a root at a stack that is not in the graph, or a marker. -/
inductive Opening where
  | root
  | method
  | astray
  | marker
deriving DecidableEq

inductive Stage where
  | called
  | running (epoch : UInt64)
  | enrolled (epoch : UInt64) (slot : Slot) (fresh : Bool)
  | cleared (epoch : UInt64) (slot : Slot) (fresh : Bool)
  | guarding (epoch : UInt64) (slot : Slot) (fresh : Bool)
  | expanding (epoch : UInt64) (slot : Slot) (opening : Opening)
  | closing (slot : Slot)
  | returned (result : Except HookError Unit)

/-- A stage at which the call itself has nothing more to do for now. -/
def Stage.paused : Stage → Bool
  | expanding .. | returned _ => true
  | _ => false

/-- A tracer, and what the calling thread remembers of its last lookup. -/
structure Local where
  tracer : Tracer
  memory : Memory

namespace Call

/-- Finds the slot of the calling thread. -/
def enroll (c : Call) (who : OsThread) (l : Local) (epoch : UInt64) : Local × Stage :=
  match l.tracer.roster.consult who.id l.memory with
  | (.registered slot, memory) => (⟨l.tracer, memory⟩, .enrolled epoch slot false)
  | (.denied, memory) =>
    (⟨l.tracer, memory⟩, .returned (if c.hook.enrolls then .error .admissionDenied else .ok ()))
  | (.unregistered, memory) =>
    if c.hook.enrolls then
      let r := l.tracer.roster.register who l.tracer.quota memory
      (⟨{ l.tracer with roster := r.roster, quota := r.quota }, r.memory⟩,
        match r.slot with
        | some slot => .enrolled epoch slot true
        | none => .returned (.error .admissionDenied))
    else (⟨l.tracer, memory⟩, .returned (.ok ()))

/-- Pushes the frame of an entry and writes its record. -/
def enter (c : Call) (t : Tracer) (epoch : UInt64) (slot : Slot) (o : Opening) : Tracer :=
  match t.roster.stack? slot with
  | none => t
  | some s =>
    let s := s.push
    let s := match o with
      | .root => s.setRootDepth s.depth
      | .astray => s.setInGraph false
      | .method | .marker => s
    let kind := match o with
      | .root => .rootEntry
      | .method | .astray => .methodEntry
      | .marker => .markerEntry
    let t := t.modifyStack slot fun _ => s
    if t.recordsDepth s.depth then t.write epoch s.no kind c.method none else t

/-- An entry that is to be told as the first invocation of its method pauses before its frame is
pushed. -/
def invoke (c : Call) (t : Tracer) (epoch : UInt64) (slot : Slot) (o : Opening) : Tracer × Stage :=
  if t.expands c.method then (t.recordInvocation c.method, .expanding epoch slot o)
  else (c.enter (t.recordInvocation c.method) epoch slot o, .closing slot)

/-- Pops the frame of an exit and writes its record. A root's frame is known by its depth. -/
def exit (c : Call) (t : Tracer) (epoch : UInt64) (slot : Slot) : Tracer :=
  match t.roster.stack? slot with
  | none => t
  | some s =>
    let depth := s.depth
    let s := if c.hook ≠ .markerExit ∧ s.rootDepth = depth then s.setRootDepth 0 else s
    let s := s.pop
    let s := if s.depth = 0 then s.leave else s
    let kind :=
      if c.hook = .markerExit then .markerExit
      else if s.rootDepth = 0 then .rootExit
      else .methodExit
    let t := t.modifyStack slot fun _ => s
    if t.recordsDepth depth then t.write epoch s.no kind c.method c.ret else t

/-- What a call does under its guard. -/
def act (c : Call) (t : Tracer) (epoch : UInt64) (slot : Slot) (fresh : Bool) : Tracer × Stage :=
  match t.roster.stack? slot with
  | none => (t, .closing slot)
  | some s =>
    match c.hook with
    | .methodEntry => c.invoke t epoch slot .method
    | .methodExit | .rootExit | .markerExit => (c.exit t epoch slot, .closing slot)
    | .rootEntry =>
      let t := if fresh then t.writeCreated epoch s.no else t
      let t := t.notify
      if !s.inGraph && 0 < s.depth then
        if 0 < s.rootDepth then
          c.invoke (t.modifyStack slot (·.setInGraph true)) epoch slot .astray
        else (t, .closing slot)
      else if s.hasRoot then c.invoke t epoch slot .method
      else
        let t := if s.depth = 0 then t.modifyStack slot (·.setInGraph true) else t
        c.invoke t epoch slot .root
    | .markerEntry =>
      let t := if fresh then t.writeCreated epoch s.no else t
      let t := t.notify
      let t := t.modifyStack slot (·.setInGraph true)
      if 0 < s.rootDepth then c.invoke t epoch slot .marker
      else (c.enter t epoch slot .marker, .closing slot)

/-- One step of a call. -/
def advance (c : Call) (who : OsThread) : Local → Stage → Local × Stage
  | l, .called =>
    match l.tracer.suspension.openEpoch with
    | none => (l, .returned (.error .suspended))
    | some epoch => (l, .running epoch)
  | l, .running epoch => c.enroll who l epoch
  | l, .enrolled epoch slot fresh =>
    match l.tracer.roster.stack? slot with
    | none => (l, .returned (.ok ()))
    | some s => (l, if c.hook.concerns s then .cleared epoch slot fresh else .returned (.ok ()))
  | ⟨t, memory⟩, .cleared epoch slot fresh =>
    match (t.roster.stack? slot).bind CallStack.takeGuard with
    | none => (⟨t, memory⟩, .returned (.error .guarded))
    | some s => (⟨t.modifyStack slot fun _ => s, memory⟩, .guarding epoch slot fresh)
  | ⟨t, memory⟩, .guarding epoch slot fresh =>
    let (t, stage) := c.act t epoch slot fresh
    (⟨t, memory⟩, stage)
  | ⟨t, memory⟩, .expanding epoch slot o => (⟨c.enter t epoch slot o, memory⟩, .closing slot)
  | ⟨t, memory⟩, .closing slot =>
    (⟨t.modifyStack slot CallStack.dropGuard, memory⟩, .returned (.ok ()))
  | l, .returned result => (l, .returned result)

/-- At most `n` steps, up to a pause. -/
def steps (c : Call) (who : OsThread) : Nat → Local × Stage → Local × Stage
  | 0, x => x
  | n + 1, x => if x.2.paused then x else c.steps who n (c.advance who x.1 x.2)

/-- From the call to its return, or to the pause in which a first invocation is told. -/
def start (c : Call) (who : OsThread) (l : Local) : Local × Stage := c.steps who 6 (l, .called)

/-- From that pause to the return. -/
def finish (c : Call) (who : OsThread) (l : Local) (stage : Stage) : Local × Stage :=
  c.steps who 1 (c.advance who l stage)

/-- A call during whose pause nothing happens. -/
def run (c : Call) (who : OsThread) (l : Local) : Local × Except HookError Unit :=
  match c.start who l with
  | (l, .returned result) => (l, result)
  | (l, stage) =>
    match c.finish who l stage with
    | (l, .returned result) => (l, result)
    | (l, _) => (l, .ok ())

end Call

/-- Instrumented code is not told when a call is refused; the refusal is counted. -/
def Tracer.countResult (t : Tracer) : Except HookError Unit → Tracer
  | .ok _ => t
  | .error e => t.countRefused e

end MethodTrace
