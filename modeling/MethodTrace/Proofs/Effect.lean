import MethodTrace.Tracer.Call

/-!
# What a call does to the stack of its thread

The part of a call that concerns no thread but its own: how the stack changes under the guard and
which record is written for the frame. `act_eq`, `enter_eq` and `exit_eq` say that a call does this
and nothing else to its stack, whatever the rest of the tracer looks like.
-/

namespace MethodTrace

namespace Opening

def kind : Opening → Kind
  | root => .rootEntry
  | method | astray => .methodEntry
  | marker => .markerEntry

/-- The stack while the first invocation is told. -/
def prepare (o : Opening) (s : CallStack) : CallStack :=
  match o with
  | root => if s.depth = 0 then s.setInGraph true else s
  | astray | marker => s.setInGraph true
  | method => s

def push (o : Opening) (s : CallStack) : CallStack :=
  match o with
  | root => s.push.setRootDepth s.push.depth
  | astray => s.push.setInGraph false
  | method | marker => s.push

@[simp] theorem prepare_no (o : Opening) (s : CallStack) : (o.prepare s).no = s.no := by
  cases o <;> simp only [prepare] <;> (try split) <;> rfl

@[simp] theorem prepare_name (o : Opening) (s : CallStack) : (o.prepare s).name = s.name := by
  cases o <;> simp only [prepare] <;> (try split) <;> rfl

@[simp] theorem prepare_guard (o : Opening) (s : CallStack) : (o.prepare s).guard = s.guard := by
  cases o <;> simp only [prepare] <;> (try split) <;> rfl

@[simp] theorem push_no (o : Opening) (s : CallStack) : (o.push s).no = s.no := by
  cases o <;> rfl

@[simp] theorem push_name (o : Opening) (s : CallStack) : (o.push s).name = s.name := by
  cases o <;> rfl

@[simp] theorem push_guard (o : Opening) (s : CallStack) : (o.push s).guard = s.guard := by
  cases o <;> rfl

@[simp] theorem prepare_depth (o : Opening) (s : CallStack) : (o.prepare s).depth = s.depth := by
  cases o <;> simp only [prepare] <;> (try split) <;> rfl

@[simp] theorem push_depth (o : Opening) (s : CallStack) :
    (o.push s).depth = CallStack.above s.depth := by
  cases o <;> rfl

end Opening

namespace Hook

/-- As what an entry opens its frame on a stack that it concerns, if it opens one. -/
def opening? (h : Hook) (s : CallStack) : Option Opening :=
  match h with
  | rootEntry =>
    if !s.inGraph && 0 < s.depth then if 0 < s.rootDepth then some .astray else none
    else if s.hasRoot then some .method
    else some .root
  | methodEntry => some .method
  | markerEntry => some .marker
  | rootExit | methodExit | markerExit => none

def isExit : Hook → Bool
  | rootExit | methodExit | markerExit => true
  | _ => false

/-- Exits register nobody. -/
theorem enrolls_of_isExit {h : Hook} (hexit : h.isExit = true) : h.enrolls = false := by
  cases h <;> first | rfl | cases hexit

/-- The stack below the frame of an exit. -/
def pop (h : Hook) (s : CallStack) : CallStack :=
  let s := if h ≠ .markerExit ∧ s.rootDepth = s.depth then s.setRootDepth 0 else s
  let s := s.pop
  if s.depth = 0 then s.leave else s

/-- The kind of the record of an exit that leaves `s` behind. -/
def exitKind (h : Hook) (s : CallStack) : Kind :=
  if h = .markerExit then .markerExit else if s.rootDepth = 0 then .rootExit else .methodExit

theorem pop_eq (h : Hook) (s : CallStack) :
    h.pop s =
      { s with
        inGraph := if CallStack.below s.depth = 0 then false else s.inGraph
        depth := CallStack.below s.depth
        rootDepth :=
          if CallStack.below s.depth = 0 then 0
          else if h ≠ .markerExit ∧ s.rootDepth = s.depth then 0
          else s.rootDepth } := by
  by_cases hb : CallStack.below s.depth = 0 <;> simp only [pop] <;> split <;>
    simp [CallStack.pop, CallStack.setRootDepth, CallStack.leave, hb]

@[simp] theorem pop_no (h : Hook) (s : CallStack) : (h.pop s).no = s.no := by rw [pop_eq]

@[simp] theorem pop_name (h : Hook) (s : CallStack) : (h.pop s).name = s.name := by rw [pop_eq]

@[simp] theorem pop_guard (h : Hook) (s : CallStack) : (h.pop s).guard = s.guard := by rw [pop_eq]

@[simp] theorem pop_depth (h : Hook) (s : CallStack) :
    (h.pop s).depth = CallStack.below s.depth := by rw [pop_eq]

theorem pop_inGraph (h : Hook) (s : CallStack) :
    (h.pop s).inGraph = if CallStack.below s.depth = 0 then false else s.inGraph := by rw [pop_eq]

theorem pop_rootDepth (h : Hook) (s : CallStack) :
    (h.pop s).rootDepth =
      if CallStack.below s.depth = 0 then 0
      else if h ≠ .markerExit ∧ s.rootDepth = s.depth then 0
      else s.rootDepth := by rw [pop_eq]

end Hook

namespace Tracer

/-- Puts a stack in its slot and writes the record of a frame at depth `d`. -/
def frame (t : Tracer) (epoch : UInt64) (slot : Slot) (s : CallStack) (d : UInt32) (k : Kind)
    (m : MethodId) (ret : Option ReturnValue) : Tracer :=
  let t := t.modifyStack slot fun _ => s
  if t.recordsDepth d then t.write epoch s.no k m ret else t

theorem modifyStack_congr {t : Tracer} {slot : Slot} {s : CallStack} {f g : CallStack → CallStack}
    (h : t.roster.stack? slot = some s) (hfg : f s = g s) :
    t.modifyStack slot f = t.modifyStack slot g := by
  have : t.roster.callStacks.modify slot f = t.roster.callStacks.modify slot g := by
    apply Array.ext_getElem?
    intro i
    simp only [Array.getElem?_modify]
    split
    · subst i; rw [show t.roster.callStacks[slot]? = some s from h]; exact congrArg some hfg
    · rfl
  simp only [modifyStack, Roster.modify, this]

theorem modifyStack_same {t : Tracer} {slot : Slot} {s : CallStack}
    (h : t.roster.stack? slot = some s) : t.modifyStack slot (fun _ => s) = t := by
  rw [show t.modifyStack slot (fun _ => s) = t.modifyStack slot id from
    modifyStack_congr h rfl]
  have : t.roster.callStacks.modify slot id = t.roster.callStacks := by
    apply Array.ext_getElem?
    intro i
    simp only [Array.getElem?_modify]
    split <;> simp
  simp only [modifyStack, Roster.modify, this]

end Tracer

namespace Call
variable {c : Call} {t : Tracer} {epoch : UInt64} {slot : Slot} {o : Opening} {s : CallStack}
  {fresh : Bool}

theorem enter_eq (h : t.roster.stack? slot = some s) :
    c.enter t epoch slot o = t.frame epoch slot (o.push s) (o.push s).depth o.kind c.method none := by
  simp only [enter, h]
  cases o <;> rfl

theorem exit_eq (h : t.roster.stack? slot = some s) :
    c.exit t epoch slot =
      t.frame epoch slot (c.hook.pop s) s.depth (c.hook.exitKind (c.hook.pop s)) c.method c.ret := by
  simp only [exit, h]
  rfl

/-- What an entry that may register its thread does first. -/
def greet (c : Call) (t : Tracer) (epoch : UInt64) (s : CallStack) (fresh : Bool) : Tracer :=
  if c.hook.enrolls then (if fresh then t.writeCreated epoch s.no else t).notify else t

/-- Whether the first invocation of the method of an entry counts. -/
def counts (o : Opening) (s : CallStack) : Bool := o ≠ .marker || 0 < s.rootDepth

@[simp] theorem greet_roster : (c.greet t epoch s fresh).roster = t.roster := by
  simp only [greet]; split <;> (try split) <;> rfl

theorem act_eq (h : t.roster.stack? slot = some s) :
    c.act t epoch slot fresh =
      match c.hook.opening? s with
      | some o =>
        let t := (c.greet t epoch s fresh).modifyStack slot fun _ => o.prepare s
        if counts o s then c.invoke t epoch slot o else (c.enter t epoch slot o, .closing slot)
      | none =>
        (if c.hook.isExit then c.exit t epoch slot else c.greet t epoch s fresh, .closing slot) := by
  have hg : (c.greet t epoch s fresh).roster.stack? slot = some s := by rw [greet_roster, h]
  have hsame := Tracer.modifyStack_same hg
  have hset : ∀ b, (c.greet t epoch s fresh).modifyStack slot (·.setInGraph b) =
      (c.greet t epoch s fresh).modifyStack slot fun _ => s.setInGraph b :=
    fun b => Tracer.modifyStack_congr hg rfl
  simp only [act, h]
  cases hh : c.hook with
  | rootExit | methodExit | markerExit => rfl
  | methodEntry =>
    have hgreet : c.greet t epoch s fresh = t := by simp [greet, hh, Hook.enrolls]
    rw [hgreet] at hsame
    simp [Hook.opening?, counts, Opening.prepare, hgreet, hsame]
  | rootEntry =>
    have hgreet : c.greet t epoch s fresh =
        (if fresh then t.writeCreated epoch s.no else t).notify := by
      simp [greet, hh, Hook.enrolls]
    simp only [← hgreet, Hook.opening?, hset]
    split
    · split <;> simp [counts, Opening.prepare, Hook.isExit]
    · split
      · simp [counts, Opening.prepare, hsame]
      · split <;> simp_all [counts, Opening.prepare]
  | markerEntry =>
    have hgreet : c.greet t epoch s fresh =
        (if fresh then t.writeCreated epoch s.no else t).notify := by
      simp [greet, hh, Hook.enrolls]
    simp only [← hgreet, Hook.opening?, hset, counts, Opening.prepare]
    split <;> simp_all

end Call

end MethodTrace
