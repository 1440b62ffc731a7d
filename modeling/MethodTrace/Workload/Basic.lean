import MethodTrace.Tracer.CallTree

/-!
# Synthetic workloads

Every worker does batches. A batch opens a root, which calls methods of level 1, each of which calls
methods of level 2, and so on, the same number of calls at every level; a marker may enclose the
root. A method returns its level plus what its callees return.

`plan` is the order in which one worker after the other does its batches, with a suspension halfway
if there is to be one.
-/

namespace MethodTrace

structure Workload where
  threads : Nat
  depth : Nat
  fanout : Nat
  iterations : Nat
  useMarker : Bool
  suspendMidway : Bool
deriving DecidableEq

namespace Workload

def default : Workload := ⟨4, 4, 2, 10, true, false⟩

def batchId : MethodId := ⟨1⟩

def rootId : MethodId := ⟨2⟩

/-- The id of level 0, which is no method. -/
def levelZero : Nat := 16

/-- The deepest level that has an id. -/
def deepest : Nat := 0xffff - levelZero

def levelId (level : Nat) : MethodId := ⟨(levelZero + min level deepest).toUInt16⟩

/-- How many levels there are. -/
def levels (w : Workload) : Nat := min w.depth deepest

/-- The names of all methods. -/
def legend (w : Workload) : List (MethodId × String) :=
  (batchId, "workload::batch") :: (rootId, "workload::run") ::
    (List.range' 1 w.levels).map fun level => (levelId level, s!"workload::level_{level}")

/-! ### A batch -/

/-- The calls to `level` and, below it, to the levels after it, `n` levels in all. With them, the
sum of what they return. -/
def callees (fanout : Nat) : Nat → Nat → List CallTree × Nat
  | 0, _ => ([], 0)
  | n + 1, level =>
    let (children, sum) := callees fanout n (level + 1)
    let returned := level + sum
    (List.replicate fanout
      (.node .method (levelId level) (some (.int (.ofNat returned))) children),
      fanout * returned)

def batch (w : Workload) : CallTree :=
  let (children, sum) := callees w.fanout w.levels 1
  let root := .node .root rootId (some (.int (.ofNat sum))) children
  if w.useMarker then .node .marker batchId none [root] else root

/-! ### The order of batches -/

inductive Round where
  | batch (worker : Nat)
  | suspend
  | resume
deriving DecidableEq

/-- `n` batches of every worker. -/
def shift (w : Workload) (n : Nat) : List Round :=
  (List.range w.threads).flatMap fun i => List.replicate n (.batch i)

def plan (w : Workload) : List Round :=
  if w.suspendMidway then
    w.shift (w.iterations / 2) ++ [.suspend] ++ w.shift 1 ++ [.resume] ++
      w.shift (w.iterations - w.iterations / 2)
  else w.shift w.iterations

/-- The thread of a worker. -/
def worker (i : Nat) : OsThread := ⟨i, some s!"worker-{i}"⟩

end Workload

end MethodTrace
