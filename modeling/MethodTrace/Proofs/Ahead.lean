import MethodTrace.Proofs.Invocations

/-!
# A call that tells and one that does not

Where nobody listens a call opens its frame at once, where it would have told of its method first. So
the stack of a call that tells is one frame behind (`Roster.Ahead`). A step of a call that does not
tell keeps this (`Call.advance_ahead`): it finds the same, does the same to its stack and marks the
same method, whether it then tells or opens the frame.
-/

namespace MethodTrace

/-- The stack once the frame is open that has been announced. -/
def CallStack.open? (s : CallStack) : Option Opening → CallStack
  | none => s
  | some o => o.push s

/-- Whether a frame is open makes no difference to the guard. -/
theorem CallStack.open?_withGuard (f : Int32 → Int32) (s : CallStack) (o : Option Opening) :
    (s.withGuard (f s.guard)).open? o = (s.open? o).withGuard (f (s.open? o).guard) := by
  cases o with
  | none => rfl
  | some o => cases o <;> rfl

theorem CallStack.open?_release (s : CallStack) (o : Option Opening) :
    s.release.open? o = (s.open? o).release := by
  have hrelease (s : CallStack) :
      s.release = s.withGuard (if 0 < s.guard then s.guard - 1 else s.guard) := by
    unfold release
    split <;> rfl
  rw [hrelease, hrelease, open?_withGuard fun g => if 0 < g then g - 1 else g]

/-- The same threads are registered, and their stacks are the same but for the frames that have been
announced for the first roster and are open in the second. -/
structure Roster.Ahead (P : Slot → Option Opening) (r r' : Roster) : Prop where
  same : r' = { r with callStacks := r'.callStacks }
  size : r'.callStacks.size = r.callStacks.size
  stack : ∀ slot, r'.stack? slot = (r.stack? slot).map (·.open? (P slot))

namespace Roster.Ahead
variable {P : Slot → Option Opening} {r r' : Roster}

theorem refl (r : Roster) : Ahead (fun _ => none) r r where
  same := rfl
  size := rfl
  stack slot := by cases h : r.stack? slot <;> rfl

theorem stack_of_none (h : Ahead P r r') {slot : Slot} (hslot : P slot = none) :
    r'.stack? slot = r.stack? slot := by
  rw [h.stack, hslot]
  cases r.stack? slot <;> rfl

theorem consult (h : Ahead P r r') (i : Nat) (memory : Memory) :
    r'.consult i memory = r.consult i memory := by
  rw [h.same]
  rfl

theorem slot? (h : Ahead P r r') (i : Nat) : r'.slot? i = r.slot? i := by
  rw [h.same]
  rfl

/-- The stack in a slot becomes another in either roster. -/
theorem update (h : Ahead P r r') {r₁ r₁' : Roster} {slot : Slot} {o : Option Opening}
    (hr : r₁ = { r with callStacks := r₁.callStacks })
    (hr' : r₁' = { r' with callStacks := r₁'.callStacks })
    (hsize : r₁.callStacks.size = r.callStacks.size)
    (hsize' : r₁'.callStacks.size = r'.callStacks.size)
    (hothers : ∀ s, s ≠ slot → r₁.stack? s = r.stack? s)
    (hothers' : ∀ s, s ≠ slot → r₁'.stack? s = r'.stack? s)
    (hstack : r₁'.stack? slot = (r₁.stack? slot).map (·.open? o)) :
    Ahead (Function.update P slot o) r₁ r₁' where
  same := by
    rw [hr', hr, h.same]
  size := hsize'.trans (h.size.trans hsize.symm)
  stack s := by
    by_cases hs : s = slot
    · rw [hs, Function.update_self, hstack]
    · rw [Function.update_of_ne hs, hothers' s hs, hothers s hs, h.stack]

theorem modify (h : Ahead P r r') (slot : Slot) {f : CallStack → CallStack}
    (hf : ∀ s o, (f s).open? o = f (s.open? o)) : Ahead P (r.modify slot f) (r'.modify slot f) where
  same := by
    rw [h.same]
    rfl
  size := by simp [Roster.modify, h.size]
  stack s := by
    by_cases hs : s = slot
    · rw [hs, stack?_modify_self, stack?_modify_self, h.stack]
      cases r.stack? slot with
      | none => rfl
      | some d => exact congrArg some (hf d _).symm
    · rw [stack?_modify_of_ne hs, stack?_modify_of_ne hs, h.stack]

theorem foldl_modify (h : Ahead P r r') (slots : List Slot) {f : CallStack → CallStack}
    (hf : ∀ s o, (f s).open? o = f (s.open? o)) :
    Ahead P (slots.foldl (fun r s => r.modify s f) r) (slots.foldl (fun r s => r.modify s f) r') := by
  induction slots generalizing r r' with
  | nil => exact h
  | cons slot slots ih => exact ih (h.modify slot hf)

theorem register (h : Ahead P r r') (who : OsThread) (q : Quota) (memory : Memory)
    (hfree : P r.callStacks.size = none) : let x := r.register who q memory
    let x' := r'.register who q memory
    Ahead P x.roster x'.roster ∧ x'.quota = x.quota ∧ x'.memory = x.memory ∧ x'.slot = x.slot := by
  obtain ⟨cs, rfl⟩ : ∃ cs, r' = { r with callStacks := cs } := ⟨_, h.same⟩
  have hsize : cs.size = r.callStacks.size := h.size
  simp only [Roster.register]
  split
  · exact ⟨h, rfl, rfl, rfl⟩
  · rcases (if who.id ∈ r.excluded then none else q.take) with _ | q'
    · exact ⟨h, rfl, rfl, rfl⟩
    · dsimp only
      rw [hsize]
      refine ⟨⟨rfl, ?_, fun slot => ?_⟩, rfl, rfl, rfl⟩
      · simp only [Array.size_push, hsize]
      · have hslot := h.stack slot
        simp only [stack?] at hslot ⊢
        rw [Array.getElem?_push, Array.getElem?_push, hsize, hslot]
        split
        · rename_i heq
          rw [heq, hfree]
          rfl
        · rfl

end Roster.Ahead

namespace Stage

/-- The opening that a call that tells has announced. -/
def opening? : Stage → Option Opening
  | expanding _ _ o => some o
  | _ => none

/-- The stage of the call where nobody listens. -/
def silent : Stage → Stage
  | expanding _ slot _ => closing slot
  | stage => stage

/-- The frames that are announced once a call has come to a stage. -/
def announce (P : Slot → Option Opening) : Stage → Slot → Option Opening
  | expanding _ slot o => Function.update P slot (some o)
  | _ => P

theorem silent_of_not_tells {stage : Stage} (h : stage.tells = false) : stage.silent = stage := by
  cases stage <;> first | rfl | cases h

end Stage

/-- The second tracer is the first where nobody listens. -/
structure Tracer.Ahead (P : Slot → Option Opening) (t t' : Tracer) : Prop where
  invoked : t'.invoked = t.invoked
  quota : t'.quota = t.quota
  suspension : t'.suspension = t.suspension
  roster : t.roster.Ahead P t'.roster

theorem Tracer.Ahead.modifyStack {P : Slot → Option Opening} {t t' : Tracer} (h : t.Ahead P t')
    (slot : Slot) {f : CallStack → CallStack} (hf : ∀ s o, (f s).open? o = f (s.open? o)) :
    (t.modifyStack slot f).Ahead P (t'.modifyStack slot f) :=
  ⟨h.invoked, h.quota, h.suspension, h.roster.modify slot hf⟩

theorem Tracer.Ahead.settle {P : Slot → Option Opening} {t t' : Tracer} (h : t.Ahead P t')
    (a : Activity) (stage : Stage) : (a.settle t stage).Ahead P t' := by
  rw [Activity.settle_eq]
  exact ⟨h.invoked, h.quota, h.suspension, h.roster⟩

theorem Tracer.Ahead.settle' {P : Slot → Option Opening} {t t' : Tracer} (h : t.Ahead P t')
    (a : Activity) (stage : Stage) : t.Ahead P (a.settle t' stage) := by
  rw [Activity.settle_eq]
  exact ⟨h.invoked, h.quota, h.suspension, h.roster⟩

/-! ### Steps of calls -/

namespace Call
variable {P : Slot → Option Opening} {c : Call} {t t' : Tracer} {slot : Slot} {s : CallStack}

theorem enter_stack? (c : Call) (t : Tracer) (epoch : UInt64) (slot : Slot) (o : Opening) :
    (c.enter t epoch slot o).roster.stack? slot = (t.roster.stack? slot).map o.push := by
  rcases hs : t.roster.stack? slot with _ | s
  · simp only [enter, hs, Option.map_none]
  · exact enter_stack hs

/-- Whoever writes for a thread, its stack is the same. -/
theorem deed_stack (c : Call) (w w' : Scribe) (s : CallStack) : (c.deed w s).1 = (c.deed w' s).1 := by
  unfold deed
  split
  · rfl
  · split <;> rfl

theorem act_ahead (c : Call) (h : t.Ahead P t') (hoff : ∀ k, t'.expands k = false) (epoch : UInt64)
    (fresh : Bool) (hslot : P slot = none) : let x := c.act t epoch slot fresh
    let x' := c.act t' epoch slot fresh
    x'.2 = x.2.silent ∧ x.1.Ahead (x.2.announce P) x'.1 := by
  intro x x'
  have hsame := h.roster.stack_of_none hslot
  rcases hs : t.roster.stack? slot with _ | s
  · have hx : x = (t, .closing slot) := by simp only [x, act, hs]
    have hx' : x' = (t', .closing slot) := by simp only [x', act, hsame, hs]
    rw [hx, hx']
    exact ⟨rfl, h⟩
  have hs' : t'.roster.stack? slot = some s := hsame.trans hs
  have htouches : t.Touches slot epoch x.1 := act_touches
  have htouches' : t'.Touches slot epoch x'.1 := act_touches
  have hmarks : x'.2 = .closing slot ∧ x'.1.invoked = x.1.invoked := by
    rcases c.act_invoked epoch fresh hs' with ⟨o, ho, hcounts, hinvoked, hstage⟩ |
      ⟨hcounts, hinvoked, hstage⟩ <;> rcases c.act_invoked epoch fresh hs with
      ⟨o', ho', hcounts', hinvoked', -⟩ | ⟨hcounts', hinvoked', -⟩
    · rw [hoff, if_neg Bool.false_ne_true] at hstage
      exact ⟨hstage, by rw [hinvoked, hinvoked', h.invoked]⟩
    · rw [hcounts' o ho] at hcounts
      cases hcounts
    · rw [hcounts o' ho'] at hcounts'
      cases hcounts'
    · exact ⟨hstage, by rw [hinvoked, hinvoked', h.invoked]⟩
  obtain ⟨hstage', hinvoked⟩ := hmarks
  have hdeed (w : Scribe) : x'.1.roster.stack? slot = some (c.deed w s).1 := by
    rcases c.act_cases epoch fresh hs' with ⟨-, hstack, -⟩ | ⟨o, hstage, -⟩
    · exact hstack.trans (congrArg some (c.deed_stack _ w s))
    · rw [hstage'] at hstage
      cases hstage
  have hahead {o : Option Opening} (hstack : x'.1.roster.stack? slot =
      (x.1.roster.stack? slot).map (·.open? o)) : x.1.Ahead (Function.update P slot o) x'.1 := by
    refine ⟨hinvoked, ?_, ?_, h.roster.update htouches.roster htouches'.roster htouches.size
      htouches'.size htouches.others htouches'.others hstack⟩
    · rw [htouches.quota, htouches'.quota, h.quota]
    · rw [htouches.suspension, htouches'.suspension, h.suspension]
  rcases c.act_cases epoch fresh hs with ⟨hstage, hstack, -⟩ | ⟨o, hstage, ho, hstack, -⟩
  · have hP : x.2.announce P = Function.update P slot none := by
      rw [hstage, ← hslot, Function.update_eq_self]
      rfl
    rw [hP]
    refine ⟨by rw [hstage', hstage]; rfl, hahead ?_⟩
    rw [hdeed, hstack]
    rfl
  · have hP : x.2.announce P = Function.update P slot (some o) := by
      rw [hstage]
      rfl
    rw [hP]
    refine ⟨by rw [hstage', hstage]; rfl, hahead ?_⟩
    rw [hdeed (t.scribe s.no), hstack, deed, ho]
    rfl

/-- A step of a call that does not tell, where somebody listens and where nobody does. -/
theorem advance_ahead (c : Call) (who : OsThread) (h : t.Ahead P t')
    (hoff : ∀ k, t'.expands k = false) (memory : Memory) {stage : Stage} (ht : stage.tells = false)
    (hslot : ∀ slot, stage.slot? = some slot → P slot = none)
    (hfree : P t.roster.callStacks.size = none) : let x := c.advance who ⟨t, memory⟩ stage
    let x' := c.advance who ⟨t', memory⟩ stage
    x'.1.memory = x.1.memory ∧ x'.2 = x.2.silent ∧
      x.1.tracer.Ahead (x.2.announce P) x'.1.tracer := by
  have hsame (slot : Slot) (hs : stage.slot? = some slot) :=
    h.roster.stack_of_none (hslot slot hs)
  cases stage with
  | called =>
    simp only [advance, h.suspension]
    split <;> exact ⟨rfl, rfl, h⟩
  | running epoch =>
    simp only [advance, enroll, h.roster.consult]
    rcases t.roster.consult who.id memory with ⟨slot | _ | _, memory'⟩
    · exact ⟨rfl, rfl, h⟩
    · dsimp only
      split
      · obtain ⟨hroster, hquota, hmemory, hfound⟩ := h.roster.register who t.quota memory' hfree
        rw [h.quota, hquota, hmemory, hfound]
        rcases (t.roster.register who t.quota memory').slot with _ | slot <;>
          exact ⟨rfl, rfl, h.invoked, rfl, h.suspension, hroster⟩
      · exact ⟨rfl, rfl, h⟩
    · exact ⟨rfl, rfl, h⟩
  | enrolled epoch slot fresh =>
    simp only [advance, hsame slot rfl]
    split
    · exact ⟨rfl, rfl, h⟩
    · split <;> exact ⟨rfl, rfl, h⟩
  | cleared epoch slot fresh =>
    have hs' := hsame slot rfl
    rcases hs : t.roster.stack? slot with _ | s <;> rw [hs] at hs'
    · simp only [advance, hs', hs, Option.bind_none]
      exact ⟨trivial, rfl, h⟩
    · cases hg : s.guarded with
      | true =>
        have htake : s.takeGuard = none := if_pos hg
        simp only [advance, hs', hs, Option.bind_some, htake]
        exact ⟨trivial, rfl, h⟩
      | false =>
        have htake : s.takeGuard = some s.bump := by
          rw [CallStack.takeGuard, hg, if_neg Bool.false_ne_true]
        have hbump {t : Tracer} (hs : t.roster.stack? slot = some s) :
            t.modifyStack slot (fun _ => s.bump) = t.modifyStack slot CallStack.bump :=
          Tracer.modifyStack_congr hs rfl
        simp only [advance, hs', hs, Option.bind_some, htake]
        rw [hbump hs, hbump hs']
        exact ⟨trivial, rfl, h.modifyStack slot (CallStack.open?_withGuard (· + 1))⟩
  | guarding epoch slot fresh => exact ⟨rfl, c.act_ahead h hoff epoch fresh (hslot slot rfl)⟩
  | expanding => cases ht
  | closing slot =>
    exact ⟨rfl, rfl, h.modifyStack slot (CallStack.open?_withGuard (· - 1))⟩
  | returned => exact ⟨rfl, rfl, h⟩

end Call

end MethodTrace
