import MethodTrace.Tracer.Refusal

/-!
# Tally

What a tracer counts over its whole life: what it wrote, and what it refused by reason.
-/

namespace MethodTrace

structure Tally where
  written : UInt64
  dropped : UInt64
  sealedOut : UInt64
  denied : UInt64
  guarded : UInt64
  suspended : UInt64
  registered : UInt64
deriving DecidableEq

namespace Tally

def zero : Tally := ⟨0, 0, 0, 0, 0, 0, 0⟩

def countWritten (t : Tally) : Tally := { t with written := t.written + 1 }

def countRegistered (t : Tally) : Tally := { t with registered := t.registered + 1 }

def countRefused (t : Tally) : HookError → Tally
  | .admissionDenied => { t with denied := t.denied + 1 }
  | .guarded => { t with guarded := t.guarded + 1 }
  | .suspended => { t with suspended := t.suspended + 1 }
  | .queue (.overflow _) => { t with dropped := t.dropped + 1 }
  | .queue .sealed => { t with sealedOut := t.sealedOut + 1 }

/-- Counts what became of a record. -/
def countAppended (t : Tally) : Except QueueError Unit → Tally
  | .ok _ => t.countWritten
  | .error e => t.countRefused (.queue e)

end Tally

end MethodTrace
