import MethodTrace.Thread.Roster

/-!
# A crew of threads

The threads of a program by their place in a list. A thread comes to life when something first
happens on it; if it has ended, the next thing happens on a new thread of the same name, which is
another thread to every roster and remembers nothing.
-/

namespace MethodTrace

structure Post where
  name : Option String
  /-- The identity of the thread that lives here, if one does. -/
  id : Option Nat

structure Crew where
  posts : Array Post
  nextId : Nat
  memories : List (Nat × Recollection)

namespace Crew

def ofNames (names : List (Option String)) : Crew :=
  ⟨(names.map fun n => ⟨n, none⟩).toArray, 0, []⟩

/-- The thread at a place, which now lives. -/
def wake (c : Crew) (i : Nat) : Option (OsThread × Crew) :=
  match c.posts[i]? with
  | none => none
  | some ⟨name, some id⟩ => some (⟨id, name⟩, c)
  | some ⟨name, none⟩ =>
    some (⟨c.nextId, name⟩,
      { c with posts := c.posts.setIfInBounds i ⟨name, some c.nextId⟩, nextId := c.nextId + 1 })

def lives (c : Crew) (i : Nat) : Bool :=
  match c.posts[i]? with
  | some p => p.id.isSome
  | none => false

def finish (c : Crew) (i : Nat) : Crew :=
  { c with posts := c.posts.modify i fun p => { p with id := none } }

def memory (c : Crew) (thread : OsThread) : Memory := c.memories.lookup thread.id

def setMemory (c : Crew) (thread : OsThread) (m : Memory) : Crew :=
  let others := c.memories.filter fun p => p.1 ≠ thread.id
  { c with memories := match m with
    | some r => (thread.id, r) :: others
    | none => others }

end Crew

end MethodTrace
