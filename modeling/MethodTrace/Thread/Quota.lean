/-!
# The quota of threads

How many more threads may be registered.
-/

namespace MethodTrace

structure Quota where
  remaining : UInt32
deriving DecidableEq

namespace Quota

/-- Takes one slot, if there is one. -/
def take (q : Quota) : Option Quota := if q.remaining = 0 then none else some ⟨q.remaining - 1⟩

/-- Tries `n` times; with what is left, how often it has worked, counted from `k`. -/
def takeTimes : Nat → Nat → Quota → Nat × Quota
  | 0, k, q => (k, q)
  | n + 1, k, q =>
    match q.take with
    | none => takeTimes n k q
    | some q => takeTimes n (k + 1) q

end Quota

end MethodTrace
