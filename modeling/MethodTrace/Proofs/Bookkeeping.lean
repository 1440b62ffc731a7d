import MethodTrace.Proofs.Outcome

/-!
# Recording does not influence the rest

Which records are written, and whether the queue lets them in, makes no difference to the stacks, to
who is registered or suspended, to what is told and to what calls return. A machine without its
records, its clock and the settings that are about records (`Machine.bare`) does the same moves in the
same way (`step_bare`, `outcome_bare`).
-/

namespace MethodTrace

/-- Without what is counted of records. -/
def Tally.bare (t : Tally) : Tally := { t with written := 0, dropped := 0, sealedOut := 0 }

theorem Tally.countAppended_bare (t : Tally) (v : Except QueueError Unit) :
    (t.countAppended v).bare = t.bare := by
  rcases v with (_ | _) | _ <;> rfl

theorem Tally.countRefused_bare (t : Tally) (e : HookError) :
    (t.countRefused e).bare = (t.bare.countRefused e).bare := by
  rcases e with _ | _ | _ | (_ | _) <;> rfl

/-- Without what a collector gets to know. -/
def Outcome.bare : Outcome → Outcome
  | .drained .. | .flag _ => .nothing
  | o => o

/-- Without what is known of records and of the settings that are about them. -/
def Outlook.bare (o : Outlook) : Outlook :=
  { o with tally := o.tally.bare, depthLimit := 0, queued := [], dropped := 0 }

namespace Tracer
variable {t t' : Tracer}

/-- A tracer without its records and what is said about them. -/
def bare (t : Tracer) : Tracer :=
  { t with
    captureReturns := false
    depthLimit := 0
    queue := .new 0
    tally := t.tally.bare
    clock := ⟨0⟩ }

@[simp] theorem bare_roster (t : Tracer) : t.bare.roster = t.roster := rfl

@[simp] theorem bare_suspension (t : Tracer) : t.bare.suspension = t.suspension := rfl

theorem write_bare (t : Tracer) (epoch : UInt64) (no : ThreadNo) (k : Kind) (m : MethodId)
    (ret : Option ReturnValue) : (t.write epoch no k m ret).bare = t.bare := by
  simp only [bare, write, Tally.countAppended_bare]

theorem frame_bare (t : Tracer) (epoch : UInt64) (slot : Slot) (s : CallStack) (d : UInt32)
    (k : Kind) (m : MethodId) (ret : Option ReturnValue) :
    (t.frame epoch slot s d k m ret).bare = (t.modifyStack slot fun _ => s).bare := by
  unfold frame
  dsimp only
  split
  · exact write_bare ..
  · rfl

theorem writeCreated_bare (t : Tracer) (epoch : UInt64) (no : ThreadNo) :
    (t.writeCreated epoch no).bare = { t.bare with tally := t.tally.countRegistered.bare } := by
  simp only [bare, writeCreated, Tally.countAppended_bare]

end Tracer

namespace Call
variable {c : Call} {t : Tracer} {epoch : UInt64} {slot : Slot} {s : CallStack}

theorem greet_bare (c : Call) (t : Tracer) (epoch : UInt64) (s : CallStack) (fresh : Bool) :
    (c.greet t epoch s fresh).bare = (c.greet t.bare epoch s fresh).bare := by
  have hnotify : ∀ t : Tracer, t.notify.bare = t.bare := fun _ => rfl
  unfold greet
  split
  · rw [hnotify, hnotify]
    split
    · rw [Tracer.writeCreated_bare, Tracer.writeCreated_bare]
      rfl
    · rfl
  · rfl

theorem enter_bare (c : Call) (t : Tracer) (epoch : UInt64) (slot : Slot) (o : Opening) :
    (c.enter t epoch slot o).bare = (c.enter t.bare epoch slot o).bare := by
  rcases h : t.roster.stack? slot with _ | s
  · have h' : t.bare.roster.stack? slot = none := h
    simp only [enter, h, h']
    rfl
  · have h' : t.bare.roster.stack? slot = some s := h
    rw [enter_eq h, enter_eq h', Tracer.frame_bare, Tracer.frame_bare]
    rfl

theorem exit_bare (c : Call) (t : Tracer) (epoch : UInt64) (slot : Slot) :
    (c.exit t epoch slot).bare = (c.exit t.bare epoch slot).bare := by
  rcases h : t.roster.stack? slot with _ | s
  · have h' : t.bare.roster.stack? slot = none := h
    simp only [exit, h, h']
    rfl
  · have h' : t.bare.roster.stack? slot = some s := h
    rw [exit_eq h, exit_eq h', Tracer.frame_bare, Tracer.frame_bare]
    rfl

theorem enter_congr {t t' : Tracer} (h : t.bare = t'.bare) (c : Call) (epoch : UInt64) (slot : Slot)
    (o : Opening) : (c.enter t epoch slot o).bare = (c.enter t' epoch slot o).bare := by
  rw [enter_bare, h, ← enter_bare]

theorem invoke_congr {t t' : Tracer} (h : t.bare = t'.bare) (c : Call) (epoch : UInt64) (slot : Slot)
    (o : Opening) : (c.invoke t epoch slot o).1.bare = (c.invoke t' epoch slot o).1.bare ∧
      (c.invoke t epoch slot o).2 = (c.invoke t' epoch slot o).2 := by
  have hrecord : ∀ t : Tracer, (t.recordInvocation c.method).bare = t.bare.recordInvocation c.method :=
    fun _ => rfl
  have hexpands : ∀ t : Tracer, t.expands c.method = t.bare.expands c.method := fun _ => rfl
  have hrecorded : (t.recordInvocation c.method).bare = (t'.recordInvocation c.method).bare := by
    rw [hrecord, hrecord, h]
  unfold invoke
  rw [hexpands t, hexpands t', h]
  split
  · exact ⟨hrecorded, rfl⟩
  · exact ⟨enter_congr hrecorded c epoch slot o, rfl⟩

theorem act_bare (c : Call) (t : Tracer) (epoch : UInt64) (slot : Slot) (fresh : Bool) :
    (c.act t epoch slot fresh).1.bare = (c.act t.bare epoch slot fresh).1.bare ∧
      (c.act t epoch slot fresh).2 = (c.act t.bare epoch slot fresh).2 := by
  rcases h : t.roster.stack? slot with _ | s
  · have h' : t.bare.roster.stack? slot = none := h
    simp only [act, h, h', and_true]
    rfl
  have h' : t.bare.roster.stack? slot = some s := h
  have hgreet := c.greet_bare t epoch s fresh
  rw [act_eq h, act_eq h']
  split
  · rename_i o _
    have hprepare : ∀ t : Tracer, (t.modifyStack slot fun _ => o.prepare s).bare =
        t.bare.modifyStack slot fun _ => o.prepare s := fun _ => rfl
    have hprepared : ((c.greet t epoch s fresh).modifyStack slot fun _ => o.prepare s).bare =
        ((c.greet t.bare epoch s fresh).modifyStack slot fun _ => o.prepare s).bare := by
      rw [hprepare, hprepare, hgreet]
    dsimp only
    split
    · exact invoke_congr hprepared c epoch slot o
    · exact ⟨enter_congr hprepared c epoch slot o, rfl⟩
  · split
    · exact ⟨c.exit_bare t epoch slot, rfl⟩
    · exact ⟨hgreet, rfl⟩

/-- A step of a call finds out and does the same. -/
theorem advance_bare (c : Call) (who : OsThread) (t : Tracer) (memory : Memory) (stage : Stage) :
    (c.advance who ⟨t, memory⟩ stage).1.tracer.bare =
        (c.advance who ⟨t.bare, memory⟩ stage).1.tracer.bare ∧
      (c.advance who ⟨t, memory⟩ stage).1.memory = (c.advance who ⟨t.bare, memory⟩ stage).1.memory ∧
      (c.advance who ⟨t, memory⟩ stage).2 = (c.advance who ⟨t.bare, memory⟩ stage).2 := by
  cases stage with
  | running epoch =>
    simp only [advance, enroll, Tracer.bare_roster]
    split
    · exact ⟨rfl, rfl, rfl⟩
    · exact ⟨rfl, rfl, rfl⟩
    · split <;> exact ⟨rfl, rfl, rfl⟩
  | called => simp only [advance, Tracer.bare_suspension]; split <;> exact ⟨rfl, rfl, rfl⟩
  | enrolled | cleared =>
    simp only [advance, Tracer.bare_roster]
    split <;> exact ⟨rfl, rfl, rfl⟩
  | guarding epoch slot fresh =>
    obtain ⟨htracer, hstage⟩ := c.act_bare t epoch slot fresh
    exact ⟨htracer, rfl, hstage⟩
  | expanding epoch slot o => exact ⟨c.enter_bare t epoch slot o, rfl, rfl⟩
  | closing | returned => exact ⟨rfl, rfl, rfl⟩

end Call

/-! ### Moves -/

theorem Activity.settle_bare (a : Activity) {t t' : Tracer} (h : t.bare = t'.bare) (stage : Stage) :
    (a.settle t stage).bare = (a.settle t' stage).bare := by
  have hcount : ∀ (t : Tracer) (e : HookError),
      (t.countRefused e).bare = (t.bare.countRefused e).bare := fun t e => by
    simp only [Tracer.countRefused, Tracer.bare, Tally.countRefused_bare t.tally e]
  unfold settle
  split
  · split
    · unfold Tracer.countResult
      split
      · exact h
      · rw [hcount, h, ← hcount]
    · exact h
  · exact h

namespace Machine
variable {m m' : Machine}

/-- A machine without its records and what is said about them. -/
def bare (m : Machine) : Machine := { m with tracer := m.tracer.bare, past := [] }

theorem roster_of_bare (h : m.bare = m'.bare) : m.tracer.roster = m'.tracer.roster :=
  (congrArg (·.tracer.roster) h :)

theorem suspension_of_bare (h : m.bare = m'.bare) : m.tracer.suspension = m'.tracer.suspension :=
  (congrArg (·.tracer.suspension) h :)

theorem memory_of_bare (h : m.bare = m'.bare) : m.memory = m'.memory := (congrArg Machine.memory h :)

theorem active_of_bare (h : m.bare = m'.bare) : m.active = m'.active := (congrArg Machine.active h :)

theorem note_bare (m : Machine) (i : Nat) (c : Call) : (m.note i c).bare = m.bare.note i c := by
  unfold note
  split <;> rename_i h <;> simp [bare] at h ⊢ <;> simp [h]

theorem proceed_bare (m : Machine) (who : OsThread) (a : Activity) (rest : List Activity) :
    (m.proceed who a rest).bare = (m.bare.proceed who a rest).bare := by
  obtain ⟨htracer, hmemory, hstage⟩ := a.call.advance_bare who m.tracer (m.memory who.id) a.stage
  simp only [proceed, put, bare]
  rw [hmemory, hstage, a.settle_bare htracer]

theorem step_bare (m : Machine) (x : Move) : (m.step x).bare = (m.bare.step x).bare := by
  cases x with
  | call who c counted =>
    have hready : m.bare.ready who.id = m.ready who.id := rfl
    simp only [step, call, hready]
    split
    · rw [proceed_bare, note_bare]
      rfl
    · rfl
  | advance who =>
    have hactive : m.bare.active = m.active := rfl
    simp only [step, advance, hactive]
    split
    · rfl
    · exact proceed_bare ..
  | suspend =>
    have hsuspend : m.bare.tracer.suspension.suspend m.bare.tracer.roster m.bare.tracer.roster.slots =
        m.tracer.suspension.suspend m.tracer.roster m.tracer.roster.slots := rfl
    simp only [step, suspend, Tracer.suspend, hsuspend]
    rcases m.tracer.suspension.suspend m.tracer.roster m.tracer.roster.slots with _ | _ <;> rfl
  | resume =>
    have hresume : m.bare.tracer.suspension.resume m.bare.tracer.roster =
        m.tracer.suspension.resume m.tracer.roster := rfl
    simp only [step, resume, Tracer.resume, hresume]
    rcases m.tracer.suspension.resume m.tracer.roster with _ | _ <;> rfl
  | reset l =>
    have hs : m.bare.tracer.suspension.suspended = m.tracer.suspension.suspended := rfl
    simp only [step, reset, Tracer.reset, hs]
    cases m.tracer.suspension.suspended <;> rfl
  | elsewhere i r =>
    have hid : m.bare.tracer.roster = m.tracer.roster := rfl
    simp only [step, hid]
    split <;> rfl
  | _ => rfl

theorem run_bare (h : m.bare = m'.bare) (xs : List Move) : (m.run xs).bare = (m'.run xs).bare := by
  induction xs generalizing m m' with
  | nil => exact h
  | cons x xs ih => exact ih (by rw [step_bare, h, ← step_bare])

/-- Whoever makes a move gets to know the same, but for what a collector gets. -/
theorem outcome_bare (m : Machine) (x : Move) : (m.outcome x).bare = (m.bare.outcome x).bare := by
  cases x with
  | call who c counted =>
    have hready : m.bare.ready who.id = m.ready who.id := rfl
    simp only [outcome, hready]
    rw [(c.advance_bare who m.tracer (m.memory who.id) .called).2.2]
    rfl
  | advance who =>
    have hactive : m.bare.active = m.active := rfl
    simp only [outcome, hactive]
    split
    · rfl
    · rename_i a rest _
      rw [(a.call.advance_bare who m.tracer (m.memory who.id) a.stage).2.2]
      rfl
  | suspend =>
    have hsuspend : m.bare.tracer.suspension.suspend m.bare.tracer.roster m.bare.tracer.roster.slots =
        m.tracer.suspension.suspend m.tracer.roster m.tracer.roster.slots := rfl
    simp only [outcome, Tracer.suspend, hsuspend]
    rcases m.tracer.suspension.suspend m.tracer.roster m.tracer.roster.slots with _ | _ <;> rfl
  | resume =>
    have hresume : m.bare.tracer.suspension.resume m.bare.tracer.roster =
        m.tracer.suspension.resume m.tracer.roster := rfl
    simp only [outcome, Tracer.resume, hresume]
    rcases m.tracer.suspension.resume m.tracer.roster with _ | _ <;> rfl
  | reset l =>
    have hs : m.bare.tracer.suspension.suspended = m.tracer.suspension.suspended := rfl
    simp only [outcome, Tracer.reset, hs]
    cases m.tracer.suspension.suspended <;> rfl
  | _ => rfl

theorem outcomes_bare (h : m.bare = m'.bare) (xs : List Move) :
    (m.outcomes xs).map Outcome.bare = (m'.outcomes xs).map Outcome.bare := by
  induction xs generalizing m m' with
  | nil => rfl
  | cons x xs ih =>
    have hx : (m.outcome x).bare = (m'.outcome x).bare := by rw [outcome_bare, h, ← outcome_bare]
    have hstep : (m.step x).bare = (m'.step x).bare := by rw [step_bare, h, ← step_bare]
    rw [outcomes, outcomes, List.map_cons, List.map_cons, hx, ih hstep]

theorem outlook_bare (h : m.bare = m'.bare) (t₀ : Tally) :
    (m.outlook t₀).bare = (m'.outlook t₀).bare := by
  have hbare : ∀ m : Machine, (m.outlook t₀).bare = (m.bare.outlook t₀).bare := fun _ => rfl
  rw [hbare, h, ← hbare]

end Machine

end MethodTrace
