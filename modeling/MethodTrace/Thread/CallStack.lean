import MethodTrace.Event.Identifier

/-!
# The call stack of a thread

Of the frames of a thread only their number is kept, and the depth of the frame of its active root.
The guard is positive while the tracer's own code runs on the thread or tracing is suspended. It is a
counter of 32 bits that wraps around.
-/

namespace MethodTrace

structure CallStack where
  no : ThreadNo
  name : Option String
  inGraph : Bool
  depth : UInt32
  rootDepth : UInt32
  guard : Int32
deriving DecidableEq

namespace CallStack

def new (no : ThreadNo) (name : Option String) : CallStack := ⟨no, name, false, 0, 0, 0⟩

def hasRoot (s : CallStack) : Bool := s.inGraph && 0 < s.rootDepth

def setInGraph (s : CallStack) (b : Bool) : CallStack := { s with inGraph := b }

def setRootDepth (s : CallStack) (d : UInt32) : CallStack := { s with rootDepth := d }

/-- The depth of a frame on top of depth `d`; the greatest depth is never left. -/
def above (d : UInt32) : UInt32 := if d = 0xffffffff then d else d + 1

/-- The depth below a frame at depth `d`; depth 0 is never left. -/
def below (d : UInt32) : UInt32 := if d = 0 then d else d - 1

def push (s : CallStack) : CallStack := { s with depth := above s.depth }

def pop (s : CallStack) : CallStack := { s with depth := below s.depth }

def leave (s : CallStack) : CallStack := { s with inGraph := false, rootDepth := 0 }

/-! ### The guard -/

def guarded (s : CallStack) : Bool := 0 < s.guard

def bump (s : CallStack) : CallStack := { s with guard := s.guard + 1 }

/-- Takes back a bump, but never goes below zero. -/
def release (s : CallStack) : CallStack :=
  if 0 < s.guard then { s with guard := s.guard - 1 } else s

/-- Nothing if the guard is held. -/
def takeGuard (s : CallStack) : Option CallStack := if s.guarded then none else some s.bump

def dropGuard (s : CallStack) : CallStack := { s with guard := s.guard - 1 }

theorem guarded_eq (s : CallStack) : s.guarded = decide (0 < s.guard.toInt) :=
  decide_eq_decide.mpr Int32.lt_iff_toInt_lt

theorem guarded_iff {s : CallStack} : s.guarded = true ↔ 0 < s.guard.toInt := by
  rw [guarded_eq, decide_eq_true_iff]

theorem guarded_eq_false_iff {s : CallStack} : s.guarded = false ↔ s.guard.toInt ≤ 0 := by
  rw [guarded_eq, decide_eq_false_iff_not, Int.not_lt]

/-- What is added to the guard is seen in it, unless the sum is out of its range. -/
theorem toInt_guard_add {s : CallStack} {d : Int} (hlow : -2147483648 ≤ s.guard.toInt + d)
    (hhigh : s.guard.toInt + d < 2147483648) :
    (s.guard + Int32.ofInt d).toInt = s.guard.toInt + d := by
  rw [Int32.toInt_add, Int32.toInt_ofInt]
  show (s.guard.toInt + d.bmod 4294967296).bmod 4294967296 = _
  rw [Int.add_bmod_bmod]
  exact Int.bmod_eq_of_le hlow hhigh

theorem toInt_guard_bump {s : CallStack} (h : s.guard.toInt < 2147483647) :
    s.bump.guard.toInt = s.guard.toInt + 1 := by
  have := s.guard.le_toInt
  have hguard : s.bump.guard = s.guard + Int32.ofInt 1 := rfl
  rw [hguard, toInt_guard_add (by omega) (by omega)]

theorem toInt_guard_dropGuard {s : CallStack} (h : 0 < s.guard.toInt) :
    s.dropGuard.guard.toInt = s.guard.toInt - 1 := by
  have := s.guard.toInt_lt
  have hguard : s.dropGuard.guard = s.guard + Int32.ofInt (-1) := Int32.sub_eq_add_neg _ _
  rw [hguard, toInt_guard_add (by omega) (by omega)]
  rfl

/-- A guard that is held is released as it is dropped. -/
theorem release_of_pos {s : CallStack} (h : 0 < s.guard.toInt) : s.release = s.dropGuard :=
  if_pos (of_decide_eq_true (guarded_iff.mpr h))

inductive Phase where
  | idle
  | inGraph (depth : UInt32)

def phase (s : CallStack) : Phase := if s.inGraph then .inGraph s.depth else .idle

end CallStack

end MethodTrace
