import MethodTrace.Proofs.Echo

/-!
# Calls of tracers that differ in what they have been through

`Tracer.Echoes k d t t'`: `t` has had threads, whose stacks fill the first `k` slots, and had counted
`d` by then; else it is like `t'`. A call goes equally far in both, by way of slots that are `k` apart
(`Call.advance_echoes`), as long as the seal keeps it out of neither queue.
-/

namespace MethodTrace

/-- Slots are `k` higher, and epochs are as they may. -/
inductive Stage.Echoes (k : Nat) : Stage → Stage → Prop where
  | called : Echoes k .called .called
  | running (e e' : UInt64) : Echoes k (.running e) (.running e')
  | enrolled (e e' : UInt64) (s : Nat) (fresh : Bool) :
    Echoes k (.enrolled e (s + k) fresh) (.enrolled e' s fresh)
  | cleared (e e' : UInt64) (s : Nat) (fresh : Bool) :
    Echoes k (.cleared e (s + k) fresh) (.cleared e' s fresh)
  | guarding (e e' : UInt64) (s : Nat) (fresh : Bool) :
    Echoes k (.guarding e (s + k) fresh) (.guarding e' s fresh)
  | expanding (e e' : UInt64) (s : Nat) (o : Opening) :
    Echoes k (.expanding e (s + k) o) (.expanding e' s o)
  | closing (s : Nat) : Echoes k (.closing (s + k)) (.closing s)
  | returned (result : Except HookError Unit) : Echoes k (.returned result) (.returned result)

theorem Stage.Echoes.outcome {k : Nat} {st st' : Stage} (h : Echoes k st st') (c : Call) :
    st.outcome c = st'.outcome c := by
  cases h <;> rfl

namespace Tracer

structure Echoes (k : Nat) (d : Tally) (t t' : Tracer) : Prop where
  captureReturns : t.captureReturns = t'.captureReturns
  expandOnFirstInvoke : t.expandOnFirstInvoke = t'.expandOnFirstInvoke
  hasHandler : t.hasHandler = t'.hasHandler
  depthLimit : t.depthLimit = t'.depthLimit
  invoked : t.invoked = t'.invoked
  quota : t.quota = t'.quota
  queue : t.queue.Echoes t'.queue
  roster : t.roster.Echoes k t'.roster
  tally : t.tally.since d = t'.tally
  suspended : t.suspension.suspended = t'.suspension.suspended
  /-- A suspension may hold stacks that have been left behind. -/
  held : ∃ old : List Slot, (∀ s ∈ old, s < k) ∧
    t.suspension.held = old ++ t'.suspension.held.map (· + k)

/-- And neither queue keeps out a call that noted `e` in one tracer and `e'` in the other. -/
structure EchoesIn (k : Nat) (d : Tally) (e e' : UInt64) (t t' : Tracer) : Prop
    extends Echoes k d t t' where
  lets : t.queue.keepsOut e = false
  lets' : t'.queue.keepsOut e' = false

variable {k s : Nat} {d : Tally} {e e' : UInt64} {t t' : Tracer} {c : CallStack}

namespace Echoes

theorem modifyStack (h : Echoes k d t t') (s : Nat) (f : CallStack → CallStack) :
    Echoes k d (t.modifyStack (s + k) f) (t'.modifyStack s f) :=
  { h with roster := h.roster.modify s f }

theorem countRefused (h : Echoes k d t t') (r : HookError) :
    Echoes k d (t.countRefused r) (t'.countRefused r) :=
  { h with tally := (Tally.since_countRefused ..).trans (congrArg (Tally.countRefused · r) h.tally) }

theorem settle (h : Echoes k d t t') {a a' : Activity} (ha : a.counted = a'.counted) {st st' : Stage}
    (hs : Stage.Echoes k st st') : Echoes k d (a.settle t st) (a'.settle t' st') := by
  cases hs with
  | returned result =>
    simp only [Activity.settle, ha]
    split
    · cases result with
      | ok => exact h
      | error r => exact h.countRefused r
    · exact h
  | _ => exact h

theorem frameRecord (h : Echoes k d t t') (no : ThreadNo) (kind : Kind) (m : MethodId)
    (ret : Option ReturnValue) :
    (t.frameRecord no kind m ret).timeless = (t'.frameRecord no kind m ret).timeless := by
  simp only [Tracer.frameRecord, h.captureReturns]
  rfl

end Echoes

/-! ### Control -/

theorem suspend_eq (t : Tracer) : t.suspend =
    if t.suspension.suspended then .error .alreadySuspended
    else .ok { t with
      suspension := ⟨true, t.suspension.epoch + 1, t.roster.slots⟩
      roster := Suspension.bumpAll t.roster t.roster.slots
      queue := t.queue.close (t.suspension.epoch + 1) (t.marker .threadsSuspended)
      clock := t.clock.next } := by
  unfold suspend Suspension.suspend
  split <;> rfl

theorem resume_eq (t : Tracer) : t.resume =
    if t.suspension.suspended then .ok { t with
      suspension := ⟨false, t.suspension.epoch, []⟩
      roster := Suspension.releaseAll t.roster t.suspension.held
      queue := t.queue.reopen (t.marker .threadsResumed)
      clock := t.clock.next }
    else .error .notSuspended := by
  unfold resume Suspension.resume
  split <;> rfl

namespace Echoes

/-- An operation is refused in both, or done in both. -/
def Both (k : Nat) (d : Tally) (x x' : Except ControlError Tracer) : Prop :=
  (∃ e, x = .error e ∧ x' = .error e) ∨ ∃ u u', x = .ok u ∧ x' = .ok u' ∧ Echoes k d u u'

theorem Both.outcome {x x' : Except ControlError Tracer} (h : Both k d x x') :
    x.map (fun _ => ()) = x'.map fun _ => () := by
  rcases h with ⟨e, rfl, rfl⟩ | ⟨u, u', rfl, rfl, -⟩ <;> rfl

theorem suspend (h : Echoes k d t t') : Both k d t.suspend t'.suspend := by
  rw [suspend_eq, suspend_eq, h.suspended]
  split
  · exact .inl ⟨_, rfl, rfl⟩
  · have hroster : Roster.Echoes k (Suspension.bumpAll t.roster t.roster.slots)
        (Suspension.bumpAll t'.roster t'.roster.slots) := by
      rw [h.roster.slots]
      exact h.roster.foldl_modify _
    exact .inr ⟨_, _, rfl, rfl, { h with
      queue := h.queue.close rfl
      roster := hroster
      suspended := rfl
      held := ⟨[], List.forall_mem_nil _, h.roster.slots⟩ }⟩

theorem resume (h : Echoes k d t t') : Both k d t.resume t'.resume := by
  rw [resume_eq, resume_eq, h.suspended]
  split
  · have hroster : Roster.Echoes k (Suspension.releaseAll t.roster t.suspension.held)
        (Suspension.releaseAll t'.roster t'.suspension.held) := by
      obtain ⟨old, hold, heq⟩ := h.held
      rw [heq, Suspension.releaseAll, List.foldl_append]
      exact (h.roster.foldl_modify_below hold).foldl_modify _
    exact .inr ⟨_, _, rfl, rfl, { h with
      queue := h.queue.reopen rfl
      roster := hroster
      suspended := rfl
      held := ⟨[], List.forall_mem_nil _, rfl⟩ }⟩
  · exact .inl ⟨_, rfl, rfl⟩

theorem reset (h : Echoes k d t t') (l : Settings.Limits) : Both k d (t.reset l) (t'.reset l) := by
  unfold Tracer.reset
  rw [h.suspended]
  split
  · exact .inr ⟨_, _, rfl, rfl, { h with
      depthLimit := rfl
      invoked := rfl
      quota := rfl
      queue := h.queue.reset _
      roster := h.roster.clear }⟩
  · exact .inl ⟨_, rfl, rfl⟩

theorem drain (h : Echoes k d t t') : Echoes k d t.drain t'.drain :=
  { h with queue := h.queue.drain }

theorem notify (h : Echoes k d t t') : Echoes k d t.notify t'.notify :=
  { h with queue := h.queue.notify }

theorem receive (h : Echoes k d t t') : Echoes k d t.receive t'.receive :=
  { h with queue := h.queue.receive }

theorem exclude (h : Echoes k d t t') (i : Nat) : Echoes k d (t.exclude i).1 (t'.exclude i).1 :=
  { h with roster := h.roster.exclude i }

end Echoes

/-! ### Writing -/

namespace EchoesIn

theorem modifyStack (h : EchoesIn k d e e' t t') (s : Nat) (f : CallStack → CallStack) :
    EchoesIn k d e e' (t.modifyStack (s + k) f) (t'.modifyStack s f) :=
  ⟨h.toEchoes.modifyStack s f, h.lets, h.lets'⟩

theorem notify (h : EchoesIn k d e e' t t') : EchoesIn k d e e' t.notify t'.notify where
  toEchoes := h.toEchoes.notify
  lets := (Queue.keepsOut_congr (by simp [Tracer.notify])).trans h.lets
  lets' := (Queue.keepsOut_congr (by simp [Tracer.notify])).trans h.lets'

theorem recordInvocation (h : EchoesIn k d e e' t t') (m : MethodId) :
    EchoesIn k d e e' (t.recordInvocation m) (t'.recordInvocation m) :=
  ⟨{ h.toEchoes with invoked := by simp only [Tracer.recordInvocation, h.invoked] }, h.lets, h.lets'⟩

theorem write (h : EchoesIn k d e e' t t') (no : ThreadNo) (kind : Kind) (m : MethodId)
    (ret : Option ReturnValue) :
    EchoesIn k d e e' (t.write e no kind m ret) (t'.write e' no kind m ret) where
  toEchoes := { h.toEchoes with
    queue := h.queue.append h.lets h.lets' (h.frameRecord no kind m ret)
    tally := by
      simp only [Tracer.write, Tally.since_countAppended, h.tally, h.queue.verdict h.lets h.lets'] }
  lets := (Queue.keepsOut_congr (by simp [Tracer.write])).trans h.lets
  lets' := (Queue.keepsOut_congr (by simp [Tracer.write])).trans h.lets'

theorem writeCreated (h : EchoesIn k d e e' t t') (no : ThreadNo) :
    EchoesIn k d e e' (t.writeCreated e no) (t'.writeCreated e' no) where
  toEchoes := { h.toEchoes with
    queue := h.queue.appendControl h.lets h.lets' rfl
    tally := by
      simp only [Tracer.writeCreated, Tally.since_countAppended, Tally.since_countRegistered, h.tally,
        Queue.controlVerdict_eq_ok h.lets, Queue.controlVerdict_eq_ok h.lets'] }
  lets := (Queue.keepsOut_congr (by simp [Tracer.writeCreated])).trans h.lets
  lets' := (Queue.keepsOut_congr (by simp [Tracer.writeCreated])).trans h.lets'

theorem frame (h : EchoesIn k d e e' t t') (s : Nat) (c : CallStack) (depth : UInt32) (kind : Kind)
    (m : MethodId) (ret : Option ReturnValue) :
    EchoesIn k d e e' (t.frame e (s + k) c depth kind m ret) (t'.frame e' s c depth kind m ret) := by
  have hstack := h.modifyStack s fun _ => c
  have hdepth : (t.modifyStack (s + k) fun _ => c).recordsDepth depth =
      (t'.modifyStack s fun _ => c).recordsDepth depth := by
    simp only [Tracer.recordsDepth, hstack.depthLimit]
  unfold Tracer.frame
  simp only [hdepth]
  split
  · exact hstack.write c.no kind m ret
  · exact hstack

end EchoesIn

end Tracer

/-! ### Calls -/

namespace Call
variable {k s : Nat} {d : Tally} {e e' : UInt64} {t t' : Tracer} {c : Call}

/-- What both have done, and where they have come to. -/
structure Echoed (k : Nat) (d : Tally) (x x' : Tracer × Stage) : Prop where
  tracer : x.1.Echoes k d x'.1
  stage : x.2.Echoes k x'.2

theorem enter_echoes (h : t.EchoesIn k d e e' t') (s : Nat) (o : Opening) :
    (c.enter t e (s + k) o).EchoesIn k d e e' (c.enter t' e' s o) := by
  have hstack := h.roster.stack s
  rcases hs : t'.roster.stack? s with _ | x <;> rw [hs] at hstack
  · simpa only [enter, hstack, hs] using h
  · rw [enter_eq hstack, enter_eq hs]
    exact h.frame ..

theorem exit_echoes (h : t.EchoesIn k d e e' t') (s : Nat) :
    (c.exit t e (s + k)).EchoesIn k d e e' (c.exit t' e' s) := by
  have hstack := h.roster.stack s
  rcases hs : t'.roster.stack? s with _ | x <;> rw [hs] at hstack
  · simpa only [exit, hstack, hs] using h
  · rw [exit_eq hstack, exit_eq hs]
    exact h.frame ..

theorem greet_echoes (h : t.EchoesIn k d e e' t') (x : CallStack) (fresh : Bool) :
    (c.greet t e x fresh).EchoesIn k d e e' (c.greet t' e' x fresh) := by
  unfold greet
  split
  · split
    · exact (h.writeCreated x.no).notify
    · exact h.notify
  · exact h

theorem invoke_echoes (h : t.EchoesIn k d e e' t') (s : Nat) (o : Opening) :
    Echoed k d (c.invoke t e (s + k) o) (c.invoke t' e' s o) := by
  have hexpands : t.expands c.method = t'.expands c.method := by
    simp only [Tracer.expands, h.invoked, h.expandOnFirstInvoke, h.hasHandler]
  unfold invoke
  rw [hexpands]
  split
  · exact ⟨(h.recordInvocation c.method).toEchoes, .expanding ..⟩
  · exact ⟨(enter_echoes (h.recordInvocation c.method) s o).toEchoes, .closing s⟩

theorem act_echoes (h : t.EchoesIn k d e e' t') (s : Nat) (fresh : Bool) :
    Echoed k d (c.act t e (s + k) fresh) (c.act t' e' s fresh) := by
  have hstack := h.roster.stack s
  rcases hs : t'.roster.stack? s with _ | x <;> rw [hs] at hstack
  · simp only [act, hstack, hs]
    exact ⟨h.toEchoes, .closing s⟩
  · have hgreet := greet_echoes (c := c) h x fresh
    rw [act_eq hstack, act_eq hs]
    split
    · rename_i o _
      have hprepare := hgreet.modifyStack s fun _ => o.prepare x
      dsimp only
      split
      · exact invoke_echoes hprepare s o
      · exact ⟨(enter_echoes hprepare s o).toEchoes, .closing s⟩
    · split
      · exact ⟨(exit_echoes h s).toEchoes, .closing s⟩
      · exact ⟨hgreet.toEchoes, .closing s⟩

theorem place_echoes (h : t.Echoes k d t') (who : OsThread) :
    Echoed k d (c.place who t e (t.roster.lookup who.id))
      (c.place who t' e' (t'.roster.lookup who.id)) := by
  rw [h.roster.lookup who.id]
  rcases hl : t'.roster.lookup who.id with s | _ | _
  · exact ⟨h, .enrolled ..⟩
  · have hnone : t'.roster.slot? who.id = none := Roster.slot?_of_lookup_ne fun s hs => by
      rw [hl] at hs
      cases hs
    obtain ⟨hroster, hquota, hslot⟩ := h.roster.register hnone t'.quota
    simp only [place, Standing.raise, h.quota, hquota, hslot]
    split
    · have hregistered : Tracer.Echoes k d { t with
          roster := (t.roster.register who t'.quota none).roster
          quota := (t'.roster.register who t'.quota none).quota } { t' with
          roster := (t'.roster.register who t'.quota none).roster
          quota := (t'.roster.register who t'.quota none).quota } :=
        { h with roster := hroster, quota := rfl }
      rcases (t'.roster.register who t'.quota none).slot with _ | slot
      · exact ⟨hregistered, .returned _⟩
      · exact ⟨hregistered, .enrolled ..⟩
    · exact ⟨h, .returned _⟩
  · exact ⟨h, .returned _⟩

/-- A step of a call whose thread remembers nothing. -/
theorem advance_echoes (h : t.Echoes k d t') (who : OsThread) {st st' : Stage}
    (hs : st.Echoes k st') (hk : ∀ e, st.epoch? = some e → t.queue.keepsOut e = false)
    (hk' : ∀ e, st'.epoch? = some e → t'.queue.keepsOut e = false) :
    let x := c.advance who ⟨t, none⟩ st
    let x' := c.advance who ⟨t', none⟩ st'
    Echoed k d (x.1.tracer, x.2) (x'.1.tracer, x'.2) := by
  cases hs with
  | called =>
    simp only [advance, Suspension.openEpoch, h.suspended]
    cases t'.suspension.suspended with
    | true => exact ⟨h, .returned _⟩
    | false => exact ⟨h, .running ..⟩
  | running e e' =>
    obtain ⟨htracer, hstage⟩ := c.enroll_eq who t none e
    obtain ⟨htracer', hstage'⟩ := c.enroll_eq who t' none e'
    simp only [advance]
    rw [htracer, hstage, htracer', hstage']
    exact place_echoes h who
  | enrolled e e' s fresh =>
    simp only [advance, h.roster.stack s]
    rcases t'.roster.stack? s with _ | x
    · exact ⟨h, .returned _⟩
    · dsimp only
      cases c.hook.concerns x with
      | true => exact ⟨h, .cleared ..⟩
      | false => exact ⟨h, .returned _⟩
  | cleared e e' s fresh =>
    simp only [advance, h.roster.stack s]
    rcases (t'.roster.stack? s).bind CallStack.takeGuard with _ | x
    · exact ⟨h, .returned _⟩
    · exact ⟨h.modifyStack s fun _ => x, .guarding ..⟩
  | guarding e e' s fresh => exact act_echoes ⟨h, hk e rfl, hk' e' rfl⟩ s fresh
  | expanding e e' s o =>
    exact ⟨(enter_echoes ⟨h, hk e rfl, hk' e' rfl⟩ s o).toEchoes, .closing s⟩
  | closing s => exact ⟨h.modifyStack s CallStack.dropGuard, .returned _⟩
  | returned result => exact ⟨h, .returned result⟩

end Call

end MethodTrace
