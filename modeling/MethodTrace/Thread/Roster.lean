import MethodTrace.Thread.CallStack
import MethodTrace.Thread.Quota

/-!
# The roster of threads

Which threads of the system are registered, under which numbers, and which are excluded and never
will be. `lookup` is the roster's own answer; `consult` asks a thread's memory of its last lookup
first. A roster that is cleared starts a new generation, so that no memory of it is valid any more.
Call stacks stay in the roster when their threads leave it: a hook in progress may still hold one.
-/

namespace MethodTrace

/-- A thread of the system. Threads that end leave their identity to nobody. -/
structure OsThread where
  id : Nat
  name : Option String
deriving DecidableEq

/-- The place of a call stack in its roster. -/
abbrev Slot := Nat

inductive Standing where
  | registered (slot : Slot)
  | unregistered
  | denied
deriving DecidableEq

/-- The last lookup of a thread in any roster. -/
structure Recollection where
  roster : Nat
  generation : UInt64
  standing : Standing
deriving DecidableEq

/-- What a thread remembers: one lookup, if it made one. -/
abbrev Memory := Option Recollection

structure Roster where
  id : Nat
  generation : UInt64
  nextNo : UInt32
  /-- Identities and slots, in the order of registration. -/
  members : List (Nat × Slot)
  excluded : List Nat
  callStacks : Array CallStack

namespace Roster

def new (id : Nat) : Roster := ⟨id, 0, 1, [], [], #[]⟩

def stack? (r : Roster) (s : Slot) : Option CallStack := r.callStacks[s]?

def modify (r : Roster) (s : Slot) (f : CallStack → CallStack) : Roster :=
  { r with callStacks := r.callStacks.modify s f }

def slots (r : Roster) : List Slot := r.members.map Prod.snd

def size (r : Roster) : Nat := r.members.length

def lookup (r : Roster) (thread : Nat) : Standing :=
  match r.members.lookup thread with
  | some slot => .registered slot
  | none => if thread ∈ r.excluded then .denied else .unregistered

def memoryOf (r : Roster) (m : Standing) : Memory := some ⟨r.id, r.generation, m⟩

/-- What a memory says about this roster, if it is about its present generation. -/
def recollect (r : Roster) (memory : Memory) : Option Standing :=
  match memory with
  | some c => if c.roster = r.id ∧ c.generation = r.generation then some c.standing else none
  | none => none

def consult (r : Roster) (thread : Nat) (memory : Memory) : Standing × Memory :=
  match r.recollect memory with
  | some m => (m, memory)
  | none => let m := r.lookup thread; (m, r.memoryOf m)

structure Registration where
  roster : Roster
  quota : Quota
  memory : Memory
  slot : Option Slot

/-- Registers a thread under the next number. Internal threads are refused and take no slot. -/
def register (r : Roster) (thread : OsThread) (quota : Quota) (memory : Memory) : Registration :=
  match r.members.lookup thread.id with
  | some slot => ⟨r, quota, memory, some slot⟩
  | none =>
    match if thread.id ∈ r.excluded then none else quota.take with
    | none => ⟨r, quota, r.memoryOf .denied, none⟩
    | some quota =>
      let slot := r.callStacks.size
      let r' :=
        { r with
          nextNo := r.nextNo + 1
          members := r.members ++ [(thread.id, slot)]
          callStacks := r.callStacks.push (.new ⟨r.nextNo⟩ thread.name) }
      ⟨r', quota, r.memoryOf (.registered slot), some slot⟩

def exclude (r : Roster) (thread : Nat) : Roster × Memory :=
  ({ r with excluded := if thread ∈ r.excluded then r.excluded else thread :: r.excluded },
    r.memoryOf .denied)

/-- Forgets the registered threads, not the excluded ones. -/
def clear (r : Roster) : Roster :=
  { r with members := [], nextNo := 1, generation := r.generation + 1 }

/-- Numbers and names, by number. -/
def names (r : Roster) : List (ThreadNo × Option String) :=
  r.slots.filterMap fun s => (r.stack? s).map fun c => (c.no, c.name)

end Roster

end MethodTrace
