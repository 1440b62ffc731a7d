/-!
# Refusals

Why a record, a hook or a control operation is refused.
-/

namespace MethodTrace

inductive QueueError where
  | overflow (capacity : Nat)
  | sealed
deriving DecidableEq

def QueueError.message : QueueError → String
  | overflow n => s!"event buffer full ({n} records), event dropped"
  | sealed => "event buffer sealed while tracing is suspended"

inductive HookError where
  | admissionDenied
  | guarded
  | suspended
  | queue (e : QueueError)
deriving DecidableEq

def HookError.message : HookError → String
  | admissionDenied => "thread was not admitted for tracing"
  | guarded => "hook called from inside profiler code"
  | suspended => "tracing is suspended"
  | queue e => e.message

inductive ControlError where
  | alreadySuspended
  | notSuspended
deriving DecidableEq

def ControlError.message : ControlError → String
  | alreadySuspended => "tracing is already suspended"
  | notSuspended => "tracing is not suspended"

end MethodTrace
