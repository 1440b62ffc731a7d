/-!
# Event kinds

The nine kinds of event and their codes 1 to 9. `ofCode?_eq_some_iff`: a byte stands for at most one
kind, and every kind is reached from its own code.
-/

namespace MethodTrace

inductive Kind where
  | rootEntry
  | rootExit
  | methodEntry
  | methodExit
  | markerEntry
  | markerExit
  | threadsSuspended
  | threadsResumed
  | threadCreated
deriving DecidableEq

namespace Kind

def all : List Kind :=
  [rootEntry, rootExit, methodEntry, methodExit, markerEntry, markerExit, threadsSuspended,
    threadsResumed, threadCreated]

def code : Kind → UInt8
  | rootEntry => 1
  | rootExit => 2
  | methodEntry => 3
  | methodExit => 4
  | markerEntry => 5
  | markerExit => 6
  | threadsSuspended => 7
  | threadsResumed => 8
  | threadCreated => 9

def ofCode? (b : UInt8) : Option Kind := all.find? (·.code = b)

def name : Kind → String
  | rootEntry => "ROOT_ENTRY"
  | rootExit => "ROOT_EXIT"
  | methodEntry => "METHOD_ENTRY"
  | methodExit => "METHOD_EXIT"
  | markerEntry => "MARKER_ENTRY"
  | markerExit => "MARKER_EXIT"
  | threadsSuspended => "THREADS_SUSPENDED"
  | threadsResumed => "THREADS_RESUMED"
  | threadCreated => "THREAD_CREATED"

def isEntry : Kind → Bool
  | rootEntry | methodEntry | markerEntry => true
  | _ => false

def isExit : Kind → Bool
  | rootExit | methodExit | markerExit => true
  | _ => false

/-- Written by the tracer about itself rather than for a frame. -/
def isControl : Kind → Bool
  | threadsSuspended | threadsResumed | threadCreated => true
  | _ => false

theorem mem_all (k : Kind) : k ∈ all := by cases k <;> simp [all]

@[simp] theorem ofCode?_code (k : Kind) : ofCode? k.code = some k := by cases k <;> rfl

theorem ofCode?_eq_some_iff {b : UInt8} {k : Kind} : ofCode? b = some k ↔ b = k.code := by
  constructor
  · intro h
    have := List.find?_some h
    simpa [eq_comm] using this
  · rintro rfl
    exact ofCode?_code k

end Kind

end MethodTrace
