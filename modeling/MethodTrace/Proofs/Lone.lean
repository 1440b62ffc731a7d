import MethodTrace.Proofs.Orderly
import MethodTrace.Proofs.Outcome

/-!
# One thread without the others

What the hooks of one thread do if there is no other thread (`Lone.step`). Such a thread has its stack,
its calls, its memory and the suspension. It needs no number and no slot, there is always room for it,
and nobody is told of first invocations. Moves that do not concern it do nothing (`run_filter`).
-/

namespace MethodTrace

/-! ### Without numbers and slots -/

def CallStack.unnumbered (s : CallStack) : CallStack := { s with no := .all }

def Record.unnumbered (r : Record) : Record := { r with thread := 0 }

def Scribe.unnumbered (w : Scribe) : Scribe := { w with no := .all }

def Standing.unplaced : Standing → Standing
  | registered _ => registered 0
  | unregistered => unregistered
  | denied => denied

def Stage.unplaced : Stage → Stage
  | enrolled epoch _ fresh => enrolled epoch 0 fresh
  | cleared epoch _ fresh => cleared epoch 0 fresh
  | guarding epoch _ fresh => guarding epoch 0 fresh
  | expanding epoch _ o => expanding epoch 0 o
  | closing _ => closing 0
  | called => called
  | running epoch => running epoch
  | returned result => returned result

def Activity.unplaced (a : Activity) : Activity := { a with stage := a.stage.unplaced }

@[simp] theorem Stage.unplaced_outcome (stage : Stage) (c : Call) :
    stage.unplaced.outcome c = stage.outcome c := by
  cases stage <;> rfl

@[simp] theorem Stage.unplaced_weight (stage : Stage) : stage.unplaced.weight = stage.weight := by
  cases stage <;> rfl

theorem Activity.next_unplaced (a : Activity) (stage : Stage) :
    (a.next stage).map unplaced = a.unplaced.next stage.unplaced := by
  cases stage <;> rfl

theorem weight_map_unplaced (calls : List Activity) :
    weight (calls.map Activity.unplaced) = weight calls := by
  induction calls with
  | nil => rfl
  | cons a calls ih =>
    rw [List.map_cons, weight_cons, weight_cons, ih, Activity.unplaced, Stage.unplaced_weight]

theorem Opening.prepare_unnumbered (o : Opening) (s : CallStack) :
    o.prepare s.unnumbered = (o.prepare s).unnumbered := by
  cases o with
  | root => by_cases h : s.depth = 0 <;> simp [prepare, CallStack.unnumbered, CallStack.setInGraph, h]
  | _ => rfl

theorem Opening.push_unnumbered (o : Opening) (s : CallStack) :
    o.push s.unnumbered = (o.push s).unnumbered := by
  cases o <;> rfl

theorem Hook.pop_unnumbered (h : Hook) (s : CallStack) :
    h.pop s.unnumbered = (h.pop s).unnumbered := by
  rw [pop_eq, pop_eq]
  rfl

theorem Scribe.frame_unnumbered (w : Scribe) (d : Nat) (k : Kind) (m : MethodId)
    (ret : Option ReturnValue) :
    w.unnumbered.frame d k m ret = (w.frame d k m ret).map Record.unnumbered := by
  have hlimit : w.unnumbered.limit = w.limit := rfl
  rw [frame, frame, hlimit]
  split <;> rfl

namespace Call
variable (c : Call) (w : Scribe) (s : CallStack)

theorem greeting_unnumbered (fresh : Bool) :
    c.greeting w.unnumbered fresh = (c.greeting w fresh).map Record.unnumbered := by
  unfold greeting
  split <;> rfl

/-- The number of a thread is only written down. -/
theorem deed_unnumbered : c.deed w.unnumbered s.unnumbered =
    ((c.deed w s).1.unnumbered, (c.deed w s).2.map Record.unnumbered) := by
  have hopening : c.hook.opening? s.unnumbered = c.hook.opening? s := rfl
  simp only [deed, hopening]
  cases c.hook.opening? s with
  | some o => simp only [Opening.prepare_unnumbered, Opening.push_unnumbered, Scribe.frame_unnumbered]; rfl
  | none =>
    dsimp only
    split
    · simp only [Hook.pop_unnumbered, Scribe.frame_unnumbered]; rfl
    · rfl

end Call

/-! ### One thread -/

structure Lone where
  thread : Nat
  roster : Nat
  scribe : Scribe
  suspended : Bool
  epoch : UInt64
  /-- Whether the suspension in force holds the guard. -/
  held : Bool
  excluded : Bool
  /-- What the thread remembers of this roster. -/
  known : Option Standing
  /-- The stack but for the guard. -/
  stack : Option CallStack
  calls : List Activity
  records : List Record

namespace Lone

def standing (v : Lone) : Standing :=
  if v.stack.isSome then .registered 0 else if v.excluded then .denied else .unregistered

def consult (v : Lone) : Standing := v.known.getD v.standing

/-- Whether the records of a call that noted `epoch` are kept out. -/
def sealedTo (v : Lone) (epoch : UInt64) : Bool := v.suspended && decide (v.epoch ≤ epoch)

/-- What the thread sees if it looks at its own stack. -/
def snapshot (v : Lone) : Option CallStack :=
  match v.consult with
  | .registered _ => v.stack.map (·.withGuard (Int32.ofInt ((if v.held then 1 else 0) + weight v.calls)))
  | _ => none

def enroll (v : Lone) (who : OsThread) (c : Call) (epoch : UInt64) : Lone × Stage :=
  match v.consult with
  | .registered _ => ({ v with known := some (.registered 0) }, .enrolled epoch 0 false)
  | .denied =>
    ({ v with known := some .denied },
      .returned (if c.hook.enrolls then .error .admissionDenied else .ok ()))
  | .unregistered =>
    if c.hook.enrolls then
      ({ v with known := some (.registered 0), stack := some (.new .all who.name) },
        .enrolled epoch 0 true)
    else ({ v with known := some .unregistered }, .returned (.ok ()))

def act (v : Lone) (c : Call) (epoch : UInt64) (fresh : Bool) : Lone :=
  match v.stack with
  | none => v
  | some s =>
    { v with
      stack := some (c.deed v.scribe s).1
      records := v.records ++
        if v.sealedTo epoch then [] else c.greeting v.scribe fresh ++ (c.deed v.scribe s).2 }

theorem act_of_stack {v : Lone} {s : CallStack} (h : v.stack = some s) (c : Call) (epoch : UInt64)
    (fresh : Bool) : v.act c epoch fresh = { v with
      stack := some (c.deed v.scribe s).1
      records := v.records ++
        if v.sealedTo epoch then [] else c.greeting v.scribe fresh ++ (c.deed v.scribe s).2 } := by
  simp only [act, h]

/-- One step of a call. -/
def advance (v : Lone) (who : OsThread) (c : Call) : Stage → Lone × Stage
  | .called => (v, if v.suspended then .returned (.error .suspended) else .running v.epoch)
  | .running epoch => v.enroll who c epoch
  | .enrolled epoch _ fresh =>
    (v, if v.stack.any c.hook.concerns then .cleared epoch 0 fresh else .returned (.ok ()))
  | .cleared epoch _ fresh =>
    (v, if v.held then .returned (.error .guarded) else .guarding epoch 0 fresh)
  | .guarding epoch _ fresh => (v.act c epoch fresh, .closing 0)
  | .expanding .. => (v, .closing 0)
  | .closing _ => (v, .returned (.ok ()))
  | .returned result => (v, .returned result)

def step (v : Lone) : Move → Lone
  | .call who c counted =>
    if who.id = v.thread ∧ v.calls = [] then
      { v with calls := (Activity.mk c counted .called).next (v.advance who c .called).2 }
    else v
  | .advance who =>
    if who.id = v.thread then
      match v.calls with
      | [] => v
      | a :: _ => { (v.advance who a.call a.stage).1 with
          calls := a.next (v.advance who a.call a.stage).2 }
    else v
  | .suspend =>
    if v.suspended then v
    else { v with suspended := true, epoch := v.epoch + 1, held := v.stack.isSome }
  | .resume => if v.suspended then { v with suspended := false, held := false } else v
  | .exclude i => if i = v.thread then { v with excluded := true, known := some .denied } else v
  | .look i => if i = v.thread then { v with known := some v.consult } else v
  | .elsewhere i r => if i = v.thread ∧ r.roster ≠ v.roster then { v with known := none } else v
  | .reset _ | .drain | .notify | .receive => v

def run (v : Lone) (moves : List Move) : Lone := moves.foldl step v

/-- What comes of a move of the thread. -/
def outcome (v : Lone) : Move → Outcome
  | .call who c _ => if v.calls = [] then (v.advance who c .called).2.outcome c else .nothing
  | .advance who =>
    match v.calls with
    | [] => .nothing
    | a :: _ => (v.advance who a.call a.stage).2.outcome a.call
  | _ => .nothing

/-- What the thread gets to know from its hooks: what comes of each move, and the stack that it sees
then. -/
def learned (v : Lone) : List Move → List (Outcome × Option CallStack)
  | [] => []
  | x :: xs =>
    (if x.mover? = some v.thread then [(v.outcome x, (v.step x).snapshot)] else []) ++
      (v.step x).learned xs

section
variable {v : Lone} {who : OsThread} {a : Activity}

theorem step_advance (hw : who.id = v.thread) (ha : v.calls = [a]) :
    v.step (.advance who) = { (v.advance who a.call a.stage).1 with
      calls := a.next (v.advance who a.call a.stage).2 } := by
  simp only [step, hw, ↓reduceIte, ha]

theorem outcome_advance (ha : v.calls = [a]) :
    v.outcome (.advance who) = (v.advance who a.call a.stage).2.outcome a.call := by
  simp only [outcome, ha]

theorem enroll_thread (v : Lone) (who : OsThread) (c : Call) (epoch : UInt64) :
    (v.enroll who c epoch).1.thread = v.thread := by
  unfold enroll
  split
  · rfl
  · rfl
  · split <;> rfl

theorem step_thread (v : Lone) (x : Move) : (v.step x).thread = v.thread := by
  have hadvance : ∀ (who : OsThread) (c : Call) (stage : Stage),
      (v.advance who c stage).1.thread = v.thread := by
    intro who c stage
    cases stage with
    | running epoch => exact v.enroll_thread who c epoch
    | guarding => simp only [advance, act]; split <;> rfl
    | _ => rfl
  cases x with
  | advance who =>
    rw [step]
    split
    · split
      · rfl
      · exact hadvance ..
    · rfl
  | reset | drain | notify | receive => rfl
  | _ => rw [step]; split <;> rfl

end

end Lone

/-- Whether a move concerns thread `i`: its own moves, and those that concern all threads but not only
the records. -/
def Move.concerns (i : Nat) : Move → Bool
  | .call who .. | .advance who => who.id = i
  | .suspend | .resume => true
  | .exclude j | .look j | .elsewhere j _ => j = i
  | .reset _ | .drain | .notify | .receive => false

namespace Lone
variable {v : Lone}

theorem step_of_not_concerns {x : Move} (hx : x.concerns v.thread = false) : v.step x = v := by
  cases x with
  | call who c counted =>
    have hne : ¬ who.id = v.thread := by simpa [Move.concerns] using hx
    rw [step, if_neg fun h => hne h.1]
  | advance who =>
    have hne : ¬ who.id = v.thread := by simpa [Move.concerns] using hx
    rw [step, if_neg hne]
  | suspend | resume => cases hx
  | exclude j | look j =>
    have hne : ¬ j = v.thread := by simpa [Move.concerns] using hx
    rw [step, if_neg hne]
  | elsewhere j r =>
    have hne : ¬ j = v.thread := by simpa [Move.concerns] using hx
    rw [step, if_neg fun h => hne h.1]
  | reset | drain | notify | receive => rfl

theorem concerns_of_mover? {x : Move} {i : Nat} (hx : x.mover? = some i) : x.concerns i = true := by
  cases x with
  | call who | advance who => cases hx; simp [Move.concerns]
  | _ => cases hx

/-- Moves that do not concern the thread may be left out. -/
theorem run_filter (v : Lone) (xs : List Move) :
    v.run (xs.filter (Move.concerns v.thread)) = v.run xs := by
  induction xs generalizing v with
  | nil => rfl
  | cons x xs ih =>
    have hrun : v.run (x :: xs) = (v.step x).run xs := rfl
    rw [hrun, ← ih, step_thread, List.filter_cons]
    split
    · rfl
    · rename_i hx
      rw [step_of_not_concerns (by simpa using hx)]

theorem learned_filter (v : Lone) (xs : List Move) :
    v.learned (xs.filter (Move.concerns v.thread)) = v.learned xs := by
  induction xs generalizing v with
  | nil => rfl
  | cons x xs ih =>
    rw [learned, ← ih, step_thread, List.filter_cons]
    split
    · rw [learned]
    · rename_i hx
      rw [if_neg fun h => hx (concerns_of_mover? h), step_of_not_concerns (by simpa using hx),
        List.nil_append]

end Lone

end MethodTrace
