import MethodTrace.Tracer.Call

/-!
# Call trees

A frame and the frames that are opened and closed while it is open. `calls` gives the hooks that
instrumented code calls for it, each exit of the same family and method as its entry.
-/

namespace MethodTrace

/-- What a frame is of. -/
inductive Family where
  | root
  | method
  | marker
deriving DecidableEq

namespace Family

def entry : Family → Hook
  | root => .rootEntry
  | method => .methodEntry
  | marker => .markerEntry

def exit : Family → Hook
  | root => .rootExit
  | method => .methodExit
  | marker => .markerExit

end Family

inductive CallTree where
  | node (family : Family) (method : MethodId) (ret : Option ReturnValue) (children : List CallTree)

namespace CallTree

mutual

/-- The calls of a tree, followed by `rest`. -/
def callsThen (rest : List Call) : CallTree → List Call
  | node f m ret children => ⟨f.entry, m, none⟩ :: callsOfThen (⟨f.exit, m, ret⟩ :: rest) children

def callsOfThen (rest : List Call) : List CallTree → List Call
  | [] => rest
  | t :: ts => callsThen (callsOfThen rest ts) t

end

def calls (t : CallTree) : List Call := t.callsThen []

mutual

theorem callsThen_eq (rest : List Call) (t : CallTree) : t.callsThen rest = t.calls ++ rest := by
  match t with
  | node f m ret children =>
    simp only [calls, callsThen, List.cons_append]
    rw [callsOfThen_eq (_ :: rest) children, callsOfThen_eq [_] children]
    simp

theorem callsOfThen_eq (rest : List Call) (ts : List CallTree) :
    callsOfThen rest ts = ts.flatMap calls ++ rest := by
  match ts with
  | [] => rfl
  | t :: ts =>
    simp only [callsOfThen, List.flatMap_cons, List.append_assoc]
    rw [callsOfThen_eq rest ts, callsThen_eq _ t]

end

theorem calls_node (f : Family) (m : MethodId) (ret : Option ReturnValue)
    (children : List CallTree) :
    (node f m ret children).calls =
      ⟨f.entry, m, none⟩ :: (children.flatMap calls ++ [⟨f.exit, m, ret⟩]) := by
  simp only [calls, callsThen, callsOfThen_eq]

end CallTree

end MethodTrace
