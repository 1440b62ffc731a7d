import MethodTrace.Thread.Roster
import MethodTrace.Tracer.Refusal

/-!
# Suspension

A flag that every hook reads first, an epoch that every suspension advances, and the slots whose
guards the suspension in force holds: resuming releases those and no others.
-/

namespace MethodTrace

structure Suspension where
  suspended : Bool
  /-- How many suspensions there have been. -/
  epoch : UInt64
  held : List Slot

namespace Suspension

def new : Suspension := ⟨false, 0, []⟩

/-- The epoch of a hook that starts now, none while tracing is suspended. -/
def openEpoch (b : Suspension) : Option UInt64 := if b.suspended then none else some b.epoch

def bumpAll (r : Roster) (slots : List Slot) : Roster :=
  slots.foldl (fun r s => r.modify s CallStack.bump) r

def releaseAll (r : Roster) (slots : List Slot) : Roster :=
  slots.foldl (fun r s => r.modify s CallStack.release) r

/-- Suspends the threads in `slots`, one of them once for every time it is listed. -/
def suspend (b : Suspension) (r : Roster) (slots : List Slot) :
    Except ControlError (Suspension × Roster) :=
  if b.suspended then .error .alreadySuspended
  else .ok (⟨true, b.epoch + 1, slots⟩, bumpAll r slots)

def resume (b : Suspension) (r : Roster) : Except ControlError (Suspension × Roster) :=
  if b.suspended then .ok (⟨false, b.epoch, []⟩, releaseAll r b.held) else .error .notSuspended

end Suspension

end MethodTrace
