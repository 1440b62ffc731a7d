import MethodTrace.Proofs.Footprint
import MethodTrace.Proofs.Machine

/-!
# One step of a call

`Goes` lists what a step of a call can do, with all that it has found out on the way. Invariants of
runs are proved from it, case by case, without opening `Call.advance` again (`goes_advance`).
-/

namespace MethodTrace

namespace Call

inductive Goes (c : Call) (who : OsThread) : Local → Stage → Local → Stage → Prop where
  | suspended {l : Local} (h : l.tracer.suspension.openEpoch = none) :
    Goes c who l .called l (.returned (.error .suspended))
  | start {l : Local} {epoch : UInt64} (h : l.tracer.suspension.openEpoch = some epoch) :
    Goes c who l .called l (.running epoch)
  | find {t : Tracer} {memory memory' : Memory} {epoch : UInt64} {slot : Slot}
    (h : t.roster.consult who.id memory = (.registered slot, memory')) :
    Goes c who ⟨t, memory⟩ (.running epoch) ⟨t, memory'⟩ (.enrolled epoch slot false)
  | denied {t : Tracer} {memory memory' : Memory} {epoch : UInt64}
    (h : t.roster.consult who.id memory = (.denied, memory')) :
    Goes c who ⟨t, memory⟩ (.running epoch) ⟨t, memory'⟩
      (.returned (if c.hook.enrolls then .error .admissionDenied else .ok ()))
  | stranger {t : Tracer} {memory memory' : Memory} {epoch : UInt64}
    (h : t.roster.consult who.id memory = (.unregistered, memory')) (hc : c.hook.enrolls = false) :
    Goes c who ⟨t, memory⟩ (.running epoch) ⟨t, memory'⟩ (.returned (.ok ()))
  | register {t : Tracer} {memory memory' : Memory} {epoch : UInt64} {slot : Slot}
    (h : t.roster.consult who.id memory = (.unregistered, memory')) (hc : c.hook.enrolls = true)
    (hr : (t.roster.register who t.quota memory').slot = some slot) :
    Goes c who ⟨t, memory⟩ (.running epoch)
      ⟨{ t with
          roster := (t.roster.register who t.quota memory').roster
          quota := (t.roster.register who t.quota memory').quota },
        (t.roster.register who t.quota memory').memory⟩ (.enrolled epoch slot true)
  | refuse {t : Tracer} {memory memory' : Memory} {epoch : UInt64}
    (h : t.roster.consult who.id memory = (.unregistered, memory')) (hc : c.hook.enrolls = true)
    (hr : (t.roster.register who t.quota memory').slot = none) :
    Goes c who ⟨t, memory⟩ (.running epoch)
      ⟨{ t with
          roster := (t.roster.register who t.quota memory').roster
          quota := (t.roster.register who t.quota memory').quota },
        (t.roster.register who t.quota memory').memory⟩ (.returned (.error .admissionDenied))
  | lost {l : Local} {epoch : UInt64} {slot : Slot} {fresh : Bool}
    (h : l.tracer.roster.stack? slot = none) :
    Goes c who l (.enrolled epoch slot fresh) l (.returned (.ok ()))
  | skip {l : Local} {epoch : UInt64} {slot : Slot} {fresh : Bool} {s : CallStack}
    (h : l.tracer.roster.stack? slot = some s) (hc : c.hook.concerns s = false) :
    Goes c who l (.enrolled epoch slot fresh) l (.returned (.ok ()))
  | clear {l : Local} {epoch : UInt64} {slot : Slot} {fresh : Bool} {s : CallStack}
    (h : l.tracer.roster.stack? slot = some s) (hc : c.hook.concerns s = true) :
    Goes c who l (.enrolled epoch slot fresh) l (.cleared epoch slot fresh)
  | guarded {l : Local} {epoch : UInt64} {slot : Slot} {fresh : Bool}
    (h : ∀ s, l.tracer.roster.stack? slot = some s → s.guarded = true) :
    Goes c who l (.cleared epoch slot fresh) l (.returned (.error .guarded))
  | guard {t : Tracer} {memory : Memory} {epoch : UInt64} {slot : Slot} {fresh : Bool}
    {s : CallStack} (h : t.roster.stack? slot = some s) (hg : s.guarded = false) :
    Goes c who ⟨t, memory⟩ (.cleared epoch slot fresh)
      ⟨t.modifyStack slot fun _ => s.bump, memory⟩ (.guarding epoch slot fresh)
  | act {t : Tracer} {memory : Memory} {epoch : UInt64} {slot : Slot} {fresh : Bool} :
    Goes c who ⟨t, memory⟩ (.guarding epoch slot fresh) ⟨(c.act t epoch slot fresh).1, memory⟩
      (c.act t epoch slot fresh).2
  | tell {t : Tracer} {memory : Memory} {epoch : UInt64} {slot : Slot} {o : Opening} :
    Goes c who ⟨t, memory⟩ (.expanding epoch slot o) ⟨c.enter t epoch slot o, memory⟩
      (.closing slot)
  | close {t : Tracer} {memory : Memory} {slot : Slot} :
    Goes c who ⟨t, memory⟩ (.closing slot) ⟨t.modifyStack slot CallStack.dropGuard, memory⟩
      (.returned (.ok ()))
  | ended {l : Local} {result : Except HookError Unit} :
    Goes c who l (.returned result) l (.returned result)

variable {c : Call} {who : OsThread}

theorem goes_enroll (t : Tracer) (memory : Memory) (epoch : UInt64) :
    c.Goes who ⟨t, memory⟩ (.running epoch) (c.enroll who ⟨t, memory⟩ epoch).1
      (c.enroll who ⟨t, memory⟩ epoch).2 := by
  rcases h : t.roster.consult who.id memory with ⟨_ | _ | _, memory'⟩
  · simp only [enroll, h]
    exact .find h
  · simp only [enroll, h]
    cases hc : c.hook.enrolls with
    | false => exact .stranger h hc
    | true =>
      rcases hr : (t.roster.register who t.quota memory').slot with _ | slot
      · simp only [↓reduceIte]
        exact .refuse h hc hr
      · simp only [↓reduceIte]
        exact .register h hc hr
  · simp only [enroll, h]
    exact .denied h

theorem goes_advance (l : Local) (stage : Stage) :
    c.Goes who l stage (c.advance who l stage).1 (c.advance who l stage).2 := by
  obtain ⟨t, memory⟩ := l
  cases stage with
  | called =>
    rcases h : t.suspension.openEpoch with _ | epoch
    · simp only [advance, h]
      exact .suspended h
    · simp only [advance, h]
      exact .start h
  | running epoch => exact goes_enroll t memory epoch
  | enrolled epoch slot fresh =>
    rcases h : t.roster.stack? slot with _ | s
    · simp only [advance, h]
      exact .lost h
    · simp only [advance, h]
      cases hc : c.hook.concerns s with
      | false => exact .skip h hc
      | true => exact .clear h hc
  | cleared epoch slot fresh =>
    rcases h : t.roster.stack? slot with _ | s
    · simp only [advance, h, Option.bind_none]
      exact .guarded fun s hs => by rw [h] at hs; cases hs
    · cases hg : s.guarded with
      | true =>
        simp only [advance, h, Option.bind_some, CallStack.takeGuard, hg, ↓reduceIte]
        exact .guarded fun s' hs => by rw [h] at hs; cases hs; exact hg
      | false =>
        simp only [advance, h, Option.bind_some, CallStack.takeGuard, hg, Bool.false_eq_true,
          ↓reduceIte]
        exact .guard h hg
  | guarding epoch slot fresh => exact .act
  | expanding epoch slot o => exact .tell
  | closing slot => exact .close
  | returned result => exact .ended

/-! ### What stays as it is -/

theorem invoke_stage (o : Opening) (t : Tracer) (epoch : UInt64) (slot : Slot) :
    (c.invoke t epoch slot o).2 = .closing slot ∨
      (c.invoke t epoch slot o).2 = .expanding epoch slot o := by
  unfold invoke
  split
  · exact .inr rfl
  · exact .inl rfl

theorem act_stage (t : Tracer) (epoch : UInt64) (slot : Slot) (fresh : Bool) :
    (c.act t epoch slot fresh).2 = .closing slot ∨
      ∃ o, (c.act t epoch slot fresh).2 = .expanding epoch slot o := by
  rcases h : t.roster.stack? slot with _ | s
  · exact .inl (by simp only [act, h])
  · rw [act_eq h]
    split
    · rename_i o _
      dsimp only
      split
      · exact (invoke_stage o _ epoch slot).imp_right fun h => ⟨o, h⟩
      · exact .inl rfl
    · exact .inl rfl

namespace Goes
variable {l l' : Local} {stage stage' : Stage}

/-- No call starts a new generation of the roster or excludes anybody. -/
theorem roster_same (h : c.Goes who l stage l' stage') :
    l'.tracer.roster.id = l.tracer.roster.id ∧
      l'.tracer.roster.generation = l.tracer.roster.generation ∧
      l'.tracer.roster.excluded = l.tracer.roster.excluded := by
  have hregister : ∀ (r : Roster) (q : Quota) (memory : Memory),
      (r.register who q memory).roster.id = r.id ∧
        (r.register who q memory).roster.generation = r.generation ∧
        (r.register who q memory).roster.excluded = r.excluded := by
    intro r q memory
    unfold Roster.register
    split
    · exact ⟨rfl, rfl, rfl⟩
    · split <;> exact ⟨rfl, rfl, rfl⟩
  cases h with
  | act => rw [act_touches.roster]; exact ⟨rfl, rfl, rfl⟩
  | @tell t memory epoch slot o =>
    rw [(enter_touches (c := c) epoch o).roster]; exact ⟨rfl, rfl, rfl⟩
  | register => exact hregister ..
  | refuse => exact hregister ..
  | _ => exact ⟨rfl, rfl, rfl⟩

theorem flags (h : c.Goes who l stage l' stage') :
    l'.tracer.captureReturns = l.tracer.captureReturns ∧
      l'.tracer.expandOnFirstInvoke = l.tracer.expandOnFirstInvoke ∧
      l'.tracer.hasHandler = l.tracer.hasHandler := by
  have htouches : ∀ {slot : Slot} {epoch : UInt64} {t t' : Tracer}, t.Touches slot epoch t' →
      t'.captureReturns = t.captureReturns ∧ t'.expandOnFirstInvoke = t.expandOnFirstInvoke ∧
        t'.hasHandler = t.hasHandler :=
    fun h => ⟨h.captureReturns, h.expandOnFirstInvoke, h.hasHandler⟩
  cases h with
  | act => exact htouches act_touches
  | tell => exact htouches (enter_touches _ _)
  | _ => exact ⟨rfl, rfl, rfl⟩

end Goes

end Call

namespace Activity
variable (a : Activity) (t : Tracer) (stage : Stage)

theorem settle_eq : a.settle t stage = { t with tally := (a.settle t stage).tally } := by
  unfold settle
  split
  · split
    · unfold Tracer.countResult; split <;> rfl
    · rfl
  · rfl

@[simp] theorem settle_roster : (a.settle t stage).roster = t.roster := by rw [settle_eq]

@[simp] theorem settle_queue : (a.settle t stage).queue = t.queue := by rw [settle_eq]

@[simp] theorem settle_suspension : (a.settle t stage).suspension = t.suspension := by
  rw [settle_eq]

@[simp] theorem settle_quota : (a.settle t stage).quota = t.quota := by rw [settle_eq]

@[simp] theorem settle_depthLimit : (a.settle t stage).depthLimit = t.depthLimit := by
  rw [settle_eq]

@[simp] theorem settle_captureReturns : (a.settle t stage).captureReturns = t.captureReturns := by
  rw [settle_eq]

variable {a stage}

theorem next_of_isOver (h : stage.isOver = true) : a.next stage = [] := by
  cases stage <;> first | rfl | cases h

theorem next_of_not_isOver (h : stage.isOver = false) :
    a.next stage = [{ a with stage := stage }] := by
  cases stage <;> first | rfl | cases h

theorem eq_of_mem_next {b : Activity} (h : b ∈ a.next stage) :
    b = { a with stage := stage } ∧ stage.isOver = false := by
  cases stage <;> simp_all [next, Stage.isOver]

end Activity

/-- A call that is not over is put back. -/
theorem Machine.mem_active_put (m : Machine) (i : Nat) (l : Local) (a : Activity) {stage : Stage}
    (hover : stage.isOver = false) (rest : List Activity) :
    { a with stage := stage } ∈ (m.put i l (a.next stage ++ rest)).active i := by
  show _ ∈ Function.update m.active i (a.next stage ++ rest) i
  rw [Function.update_self, Activity.next_of_not_isOver hover]
  exact List.mem_cons_self

theorem Machine.proceed_goes (m : Machine) (who : OsThread) (a : Activity) (rest : List Activity) :
    ∃ l stage, a.call.Goes who ⟨m.tracer, m.memory who.id⟩ a.stage l stage ∧
      m.proceed who a rest =
        m.put who.id ⟨a.settle l.tracer stage, l.memory⟩ (a.next stage ++ rest) :=
  ⟨_, _, a.call.goes_advance _ _, rfl⟩

/-- The innermost call of a thread goes on. -/
theorem Machine.advance_goes {m : Machine} {who : OsThread} {a : Activity} {rest : List Activity}
    (hact : m.active who.id = a :: rest) :
    ∃ l stage, a.call.Goes who ⟨m.tracer, m.memory who.id⟩ a.stage l stage ∧
      m.step (.advance who) =
        m.put who.id ⟨a.settle l.tracer stage, l.memory⟩ (a.next stage ++ rest) := by
  simp only [step, Machine.advance, hact]
  exact m.proceed_goes who a rest

/-- A thread calls a hook. -/
theorem Machine.call_goes {m : Machine} {who : OsThread} (c : Call) (counted : Bool)
    (hr : m.ready who.id = true) :
    ∃ l stage, c.Goes who ⟨m.tracer, m.memory who.id⟩ .called l stage ∧
      m.step (.call who c counted) = (m.note who.id c).put who.id
        ⟨(⟨c, counted, .called⟩ : Activity).settle l.tracer stage, l.memory⟩
        ((⟨c, counted, .called⟩ : Activity).next stage ++ m.active who.id) := by
  obtain ⟨l, stage, hgoes, hm⟩ :=
    (m.note who.id c).proceed_goes who ⟨c, counted, .called⟩ (m.active who.id)
  rw [note_tracer, note_memory] at hgoes
  refine ⟨l, stage, hgoes, ?_⟩
  rw [step, call, if_pos hr, hm]

/-! ### Suspending and resuming -/

namespace Suspension
variable {b : Suspension} {e : UInt64}

theorem openEpoch_eq_none_iff : b.openEpoch = none ↔ b.suspended = true := by
  rw [openEpoch]
  cases b.suspended <;> simp

theorem openEpoch_eq_some_iff : b.openEpoch = some e ↔ b.suspended = false ∧ b.epoch = e := by
  rw [openEpoch]
  cases b.suspended <;> simp

end Suspension

namespace Tracer
variable {t t' : Tracer}

theorem suspendSlots_eq_ok {slots : List Slot} (h : t.suspendSlots slots = .ok t') : ∃ b roster,
    t.suspension.suspend t.roster slots = .ok (b, roster) ∧
    t' = { t with
      suspension := b
      roster := roster
      queue := t.queue.close b.epoch (t.marker .threadsSuspended)
      clock := t.clock.next } := by
  unfold suspendSlots at h
  rcases hs : t.suspension.suspend t.roster slots with e | ⟨b, roster⟩
  · rw [hs] at h; cases h
  · rw [hs] at h; cases h; exact ⟨b, roster, rfl, rfl⟩

theorem resume_eq_ok (h : t.resume = .ok t') : ∃ b roster,
    t.suspension.resume t.roster = .ok (b, roster) ∧
    t' = { t with
      suspension := b
      roster := roster
      queue := t.queue.reopen (t.marker .threadsResumed)
      clock := t.clock.next } := by
  unfold resume at h
  rcases hs : t.suspension.resume t.roster with e | ⟨b, roster⟩
  · rw [hs] at h; cases h
  · rw [hs] at h; cases h; exact ⟨b, roster, rfl, rfl⟩

theorem reset_eq_error {l : Settings.Limits} {e : ControlError} (h : t.reset l = .error e) :
    t.suspension.suspended = false := by
  unfold reset at h
  split at h
  · cases h
  · rename_i hs; simpa using hs

theorem reset_eq_ok {l : Settings.Limits} (h : t.reset l = .ok t') :
    t.suspension.suspended = true ∧
    t' = { t with
      invoked := .empty
      roster := t.roster.clear
      quota := ⟨l.threadSlots⟩
      queue := t.queue.reset l.bufferCapacity.toNat
      depthLimit := l.depthLimit } := by
  unfold reset at h
  split at h
  · rename_i hs; cases h; exact ⟨hs, rfl⟩
  · cases h

end Tracer

namespace Machine

/-- A suspension is refused, or it takes hold of the stacks in the slots. -/
theorem suspendSlots_cases (m : Machine) (slots : List Slot) : m.suspendSlots slots = m ∨
    m.tracer.suspension.suspended = false ∧ m.suspendSlots slots = { m with
      tracer := { m.tracer with
        suspension := ⟨true, m.tracer.suspension.epoch + 1, slots⟩
        roster := Suspension.bumpAll m.tracer.roster slots
        queue := m.tracer.queue.close (m.tracer.suspension.epoch + 1)
          (m.tracer.marker .threadsSuspended)
        clock := m.tracer.clock.next }
      suspensions := m.suspensions + 1 } := by
  unfold suspendSlots
  split
  · rename_i t ht
    obtain ⟨b, roster, hb, rfl⟩ := Tracer.suspendSlots_eq_ok ht
    unfold Suspension.suspend at hb
    split at hb
    · cases hb
    · rename_i hs
      cases hb
      exact .inr ⟨by simpa using hs, rfl⟩
  · exact .inl rfl

/-- A suspension is refused, or it takes hold of all stacks that there are. -/
theorem suspend_cases (m : Machine) : m.suspend = m ∨
    m.tracer.suspension.suspended = false ∧ m.suspend = { m with
      tracer := { m.tracer with
        suspension := ⟨true, m.tracer.suspension.epoch + 1, m.tracer.roster.slots⟩
        roster := Suspension.bumpAll m.tracer.roster m.tracer.roster.slots
        queue := m.tracer.queue.close (m.tracer.suspension.epoch + 1)
          (m.tracer.marker .threadsSuspended)
        clock := m.tracer.clock.next }
      suspensions := m.suspensions + 1 } := by
  rw [suspend_eq_suspendSlots]
  exact m.suspendSlots_cases _

/-- Resuming is refused, or it lets go of the stacks that the suspension holds. -/
theorem resume_cases (m : Machine) : m.resume = m ∨
    m.tracer.suspension.suspended = true ∧ m.resume = { m with
      tracer := { m.tracer with
        suspension := ⟨false, m.tracer.suspension.epoch, []⟩
        roster := Suspension.releaseAll m.tracer.roster m.tracer.suspension.held
        queue := m.tracer.queue.reopen (m.tracer.marker .threadsResumed)
        clock := m.tracer.clock.next } } := by
  unfold resume
  split
  · rename_i t ht
    obtain ⟨b, roster, hb, rfl⟩ := Tracer.resume_eq_ok ht
    unfold Suspension.resume at hb
    split at hb
    · rename_i hs
      cases hb
      exact .inr ⟨hs, rfl⟩
    · cases hb
  · exact .inl rfl

/-- Flags are set once and for all. -/
theorem flags_step (m : Machine) (x : Move) :
    (m.step x).tracer.captureReturns = m.tracer.captureReturns ∧
      (m.step x).tracer.expandOnFirstInvoke = m.tracer.expandOnFirstInvoke ∧
      (m.step x).tracer.hasHandler = m.tracer.hasHandler := by
  have hproceed : ∀ (m : Machine) who a rest,
      (m.proceed who a rest).tracer.captureReturns = m.tracer.captureReturns ∧
        (m.proceed who a rest).tracer.expandOnFirstInvoke = m.tracer.expandOnFirstInvoke ∧
        (m.proceed who a rest).tracer.hasHandler = m.tracer.hasHandler := by
    intro m who a rest
    obtain ⟨l, stage, hgoes, hm⟩ := m.proceed_goes who a rest
    rw [hm]
    simp only [put]
    rw [Activity.settle_eq]
    exact hgoes.flags
  cases x with
  | call who c counted =>
    simp only [step, call]
    split
    · simpa using hproceed (m.note who.id c) who ⟨c, counted, .called⟩ (m.active who.id)
    · exact ⟨rfl, rfl, rfl⟩
  | advance who =>
    simp only [step, advance]
    split
    · exact ⟨rfl, rfl, rfl⟩
    · exact hproceed ..
  | suspend =>
    rcases m.suspend_cases with heq | ⟨-, heq⟩ <;> rw [step, heq] <;> exact ⟨rfl, rfl, rfl⟩
  | resume =>
    rcases m.resume_cases with heq | ⟨-, heq⟩ <;> rw [step, heq] <;> exact ⟨rfl, rfl, rfl⟩
  | reset l =>
    rcases hr : m.tracer.reset l with e | t
    · simp only [step, reset, hr, and_self]
    · obtain ⟨-, rfl⟩ := Tracer.reset_eq_ok hr
      simp only [step, reset, hr, and_self]
  | elsewhere j r => simp only [step]; split <;> exact ⟨rfl, rfl, rfl⟩
  | _ => exact ⟨rfl, rfl, rfl⟩

end Machine

end MethodTrace
