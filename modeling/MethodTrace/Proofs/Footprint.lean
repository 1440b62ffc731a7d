import MethodTrace.Proofs.Effect

/-!
# What a call touches

`Touches slot epoch t t'`: from `t` to `t'` nothing has changed but the call stack in `slot`, which
keeps its number and guard, and what has been written for its thread. Everything that a call does
under its guard is of this kind (`act_touches`, `enter_touches`).
-/

namespace MethodTrace

namespace Queue
variable (q : Queue) (e : UInt64) (r : Record)

@[simp] theorem signal_records (s : Signal) : (q.signal s).records = q.records := by
  unfold signal; split <;> rfl

@[simp] theorem signal_closedFrom (s : Signal) : (q.signal s).closedFrom = q.closedFrom := by
  unfold signal; split <;> rfl

@[simp] theorem signal_dropped (s : Signal) : (q.signal s).dropped = q.dropped := by
  unfold signal; split <;> rfl

@[simp] theorem signalIfFull_records : q.signalIfFull.records = q.records := by
  unfold signalIfFull; split <;> simp

@[simp] theorem signalIfFull_closedFrom : q.signalIfFull.closedFrom = q.closedFrom := by
  unfold signalIfFull; split <;> simp

@[simp] theorem signalIfFull_dropped : q.signalIfFull.dropped = q.dropped := by
  unfold signalIfFull; split <;> simp

@[simp] theorem notify_records : q.notify.records = q.records := by
  unfold notify; split <;> simp

@[simp] theorem notify_closedFrom : q.notify.closedFrom = q.closedFrom := by
  unfold notify; split <;> simp

@[simp] theorem notify_dropped : q.notify.dropped = q.dropped := by
  unfold notify; split <;> simp

@[simp] theorem append_closedFrom : (q.append e r).closedFrom = q.closedFrom := by
  unfold append; split <;> simp [push, drop]

@[simp] theorem appendControl_closedFrom : (q.appendControl e r).closedFrom = q.closedFrom := by
  unfold appendControl; split <;> simp [push]

@[simp] theorem appendControl_dropped : (q.appendControl e r).dropped = q.dropped := by
  unfold appendControl; split <;> simp [push]

@[simp] theorem signal_capacity (s : Signal) : (q.signal s).capacity = q.capacity := by
  unfold signal; split <;> rfl

@[simp] theorem notify_capacity : q.notify.capacity = q.capacity := by
  unfold notify; split <;> simp

@[simp] theorem signalIfFull_capacity : q.signalIfFull.capacity = q.capacity := by
  unfold signalIfFull; split <;> simp

@[simp] theorem append_capacity : (q.append e r).capacity = q.capacity := by
  unfold append; split <;> simp [push, drop]

@[simp] theorem appendControl_capacity : (q.appendControl e r).capacity = q.capacity := by
  unfold appendControl; split <;> rfl

theorem append_records : (q.append e r).records.toList = q.records.toList ∨
    (q.append e r).records.toList = q.records.toList ++ [r] := by
  unfold append; split <;> simp [push, drop]

theorem appendControl_records : (q.appendControl e r).records.toList = q.records.toList ∨
    (q.appendControl e r).records.toList = q.records.toList ++ [r] := by
  unfold appendControl; split <;> simp [push]

theorem close_closedFrom (h : q.isClosed = false) : (q.close e r).closedFrom = some e := by
  simp [close, h, push]

theorem reopen_closedFrom (h : q.isClosed = true) : (q.reopen r).closedFrom = none := by
  simp [reopen, h, push]

theorem keepsOut_of_open (h : q.isClosed = false) : q.keepsOut e = false := by
  have : q.closedFrom = none := by simpa [isClosed] using h
  rw [keepsOut, this, Option.any_none]

theorem close_records : (q.close e r).records.toList = q.records.toList ∨
    (q.close e r).records.toList = q.records.toList ++ [r] := by
  unfold close; split <;> simp [push]

theorem reopen_records : (q.reopen r).records.toList = q.records.toList ∨
    (q.reopen r).records.toList = q.records.toList ++ [r] := by
  unfold reopen; split <;> simp [push]

variable {q e}

theorem verdict_ne_sealed (h : q.keepsOut e = false) : q.verdict e ≠ .error .sealed := by
  unfold verdict; rw [h]; simp only [Bool.false_eq_true, ↓reduceIte]; split <;> simp

theorem controlVerdict_eq_ok (h : q.keepsOut e = false) : q.controlVerdict e = .ok () := by
  simp [controlVerdict, h]

/-- A record that is let in behind no seal is the last in the queue, unless a drop is counted. -/
theorem append_records_of_dropped (h : q.keepsOut e = false)
    (hd : (q.append e r).dropped = q.dropped) :
    (q.append e r).records.toList = q.records.toList ++ [r] := by
  rw [append] at hd ⊢
  rcases hv : q.verdict e with (n | _) | _
  · rw [hv] at hd
    simp [drop] at hd
  · exact absurd hv (verdict_ne_sealed h)
  · simp [push]

theorem appendControl_records_of_open (h : q.keepsOut e = false) :
    (q.appendControl e r).records.toList = q.records.toList ++ [r] := by
  simp [appendControl, h, push]

theorem keepsOut_congr {q' : Queue} (h : q'.closedFrom = q.closedFrom) :
    q'.keepsOut e = q.keepsOut e := by
  simp only [keepsOut, h]

end Queue

namespace Roster
variable {r : Roster} {s s' : Slot} {f : CallStack → CallStack}

theorem stack?_modify_self : (r.modify s f).stack? s = (r.stack? s).map f := by
  simp [modify, stack?, Array.getElem?_modify]

theorem stack?_modify_of_ne (h : s' ≠ s) : (r.modify s f).stack? s' = r.stack? s' := by
  simp [modify, stack?, Array.getElem?_modify, h.symm]

theorem stack?_eq_none_iff : r.stack? s = none ↔ r.callStacks.size ≤ s := by
  simp [stack?]

theorem lt_size_of_stack? {c : CallStack} (h : r.stack? s = some c) : s < r.callStacks.size :=
  Nat.lt_of_not_le fun hle => by rw [stack?_eq_none_iff.mpr hle] at h; cases h

end Roster

namespace Tracer

/-- What a call that started in `epoch` may change when it acts on the call stack in `slot`. -/
structure Touches (slot : Slot) (epoch : UInt64) (t t' : Tracer) : Prop where
  suspension : t'.suspension = t.suspension
  quota : t'.quota = t.quota
  depthLimit : t'.depthLimit = t.depthLimit
  captureReturns : t'.captureReturns = t.captureReturns
  expandOnFirstInvoke : t'.expandOnFirstInvoke = t.expandOnFirstInvoke
  hasHandler : t'.hasHandler = t.hasHandler
  roster : t'.roster = { t.roster with callStacks := t'.roster.callStacks }
  size : t'.roster.callStacks.size = t.roster.callStacks.size
  others : ∀ s, s ≠ slot → t'.roster.stack? s = t.roster.stack? s
  own : ∀ c, t.roster.stack? slot = some c →
    ∃ c', t'.roster.stack? slot = some c' ∧ c'.no = c.no ∧ c'.guard = c.guard
  records : ∃ rs, t'.queue.records.toList = t.queue.records.toList ++ rs ∧
    ∀ r ∈ rs, ∀ c, t.roster.stack? slot = some c → r.thread = c.no.val
  closedFrom : t'.queue.closedFrom = t.queue.closedFrom
  sealedOut : t.queue.keepsOut epoch = false → t'.tally.sealedOut = t.tally.sealedOut

namespace Touches
variable {slot : Slot} {epoch : UInt64} {t t' t'' : Tracer} {c : CallStack}

theorem refl (t : Tracer) : Touches slot epoch t t where
  suspension := rfl
  quota := rfl
  depthLimit := rfl
  captureReturns := rfl
  expandOnFirstInvoke := rfl
  hasHandler := rfl
  roster := rfl
  size := rfl
  others _ _ := rfl
  own c h := ⟨c, h, rfl, rfl⟩
  records := ⟨[], by simp, by simp⟩
  closedFrom := rfl
  sealedOut _ := rfl

theorem trans (h : Touches slot epoch t t') (h' : Touches slot epoch t' t'') :
    Touches slot epoch t t'' where
  suspension := h'.suspension.trans h.suspension
  quota := h'.quota.trans h.quota
  depthLimit := h'.depthLimit.trans h.depthLimit
  captureReturns := h'.captureReturns.trans h.captureReturns
  expandOnFirstInvoke := h'.expandOnFirstInvoke.trans h.expandOnFirstInvoke
  hasHandler := h'.hasHandler.trans h.hasHandler
  roster := by rw [h'.roster, h.roster]
  size := h'.size.trans h.size
  others s hs := (h'.others s hs).trans (h.others s hs)
  own c hc := by
    obtain ⟨c', hc', hno, hg⟩ := h.own c hc
    obtain ⟨c'', hc'', hno', hg'⟩ := h'.own c' hc'
    exact ⟨c'', hc'', hno'.trans hno, hg'.trans hg⟩
  records := by
    obtain ⟨rs, hrs, hno⟩ := h.records
    obtain ⟨rs', hrs', hno'⟩ := h'.records
    refine ⟨rs ++ rs', by rw [hrs', hrs, List.append_assoc], fun r hr c hc => ?_⟩
    rcases List.mem_append.mp hr with hr | hr
    · exact hno r hr c hc
    · obtain ⟨c', hc', hn, -⟩ := h.own c hc
      rw [hno' r hr c' hc', hn]
  closedFrom := h'.closedFrom.trans h.closedFrom
  sealedOut hk := (h'.sealedOut (by rw [Queue.keepsOut_congr h.closedFrom, hk])).trans
    (h.sealedOut hk)

end Touches

variable {slot : Slot} {epoch : UInt64} {t : Tracer} {c : CallStack}

theorem modifyStack_touches {f : CallStack → CallStack}
    (hf : ∀ c, t.roster.stack? slot = some c → (f c).no = c.no ∧ (f c).guard = c.guard) :
    Touches slot epoch t (t.modifyStack slot f) where
  suspension := rfl
  quota := rfl
  depthLimit := rfl
  captureReturns := rfl
  expandOnFirstInvoke := rfl
  hasHandler := rfl
  roster := rfl
  size := by simp [modifyStack, Roster.modify]
  others _ hs := Roster.stack?_modify_of_ne hs
  own c hc := ⟨f c, by simp [modifyStack, Roster.stack?_modify_self, hc], hf c hc⟩
  records := ⟨[], by simp [modifyStack], by simp⟩
  closedFrom := rfl
  sealedOut _ := rfl

theorem recordInvocation_touches (m : MethodId) : Touches slot epoch t (t.recordInvocation m) :=
  { Touches.refl t with }

theorem notify_touches : Touches slot epoch t t.notify where
  suspension := rfl
  quota := rfl
  depthLimit := rfl
  captureReturns := rfl
  expandOnFirstInvoke := rfl
  hasHandler := rfl
  roster := rfl
  size := rfl
  others _ _ := rfl
  own c h := ⟨c, h, rfl, rfl⟩
  records := ⟨[], by simp [notify], by simp⟩
  closedFrom := by simp [notify]
  sealedOut _ := rfl

theorem write_touches (hc : t.roster.stack? slot = some c) (k : Kind) (m : MethodId)
    (ret : Option ReturnValue) : Touches slot epoch t (t.write epoch c.no k m ret) where
  suspension := rfl
  quota := rfl
  depthLimit := rfl
  captureReturns := rfl
  expandOnFirstInvoke := rfl
  hasHandler := rfl
  roster := rfl
  size := rfl
  others _ _ := rfl
  own c h := ⟨c, h, rfl, rfl⟩
  records := by
    have hno : ∀ r ∈ [t.frameRecord c.no k m ret], ∀ c', t.roster.stack? slot = some c' →
        r.thread = c'.no.val := by
      intro r hr c' hc'
      rw [hc] at hc'
      cases hc'
      rw [List.mem_singleton.mp hr]
      rfl
    rcases t.queue.append_records epoch (t.frameRecord c.no k m ret) with h | h
    · exact ⟨[], by simpa [write] using h, by simp⟩
    · exact ⟨_, h, hno⟩
  closedFrom := by simp [write]
  sealedOut hk := by
    have := Queue.verdict_ne_sealed hk
    simp only [write]
    rcases hv : t.queue.verdict epoch with (n | _) | _
    · rfl
    · exact absurd hv this
    · rfl

theorem writeCreated_touches (hc : t.roster.stack? slot = some c) :
    Touches slot epoch t (t.writeCreated epoch c.no) where
  suspension := rfl
  quota := rfl
  depthLimit := rfl
  captureReturns := rfl
  expandOnFirstInvoke := rfl
  hasHandler := rfl
  roster := rfl
  size := rfl
  others _ _ := rfl
  own c h := ⟨c, h, rfl, rfl⟩
  records := by
    rcases t.queue.appendControl_records epoch
      (Event.encode ⟨.threadCreated, .none, c.no, t.clock, none⟩) with h | h
    · exact ⟨[], by simpa [writeCreated] using h, by simp⟩
    · refine ⟨_, h, fun r hr c' hc' => ?_⟩
      rw [hc] at hc'
      cases hc'
      rw [List.mem_singleton.mp hr]
      rfl
  closedFrom := by simp [writeCreated]
  sealedOut hk := by
    simp only [writeCreated, Queue.controlVerdict_eq_ok hk]
    rfl

theorem frame_touches (hc : t.roster.stack? slot = some c) {c' : CallStack} (hno : c'.no = c.no)
    (hg : c'.guard = c.guard) (d : UInt32) (k : Kind) (m : MethodId) (ret : Option ReturnValue) :
    Touches slot epoch t (t.frame epoch slot c' d k m ret) := by
  have h1 : Touches slot epoch t (t.modifyStack slot fun _ => c') :=
    modifyStack_touches fun d hd => by rw [hc] at hd; cases hd; exact ⟨hno, hg⟩
  have hc' : (t.modifyStack slot fun _ => c').roster.stack? slot = some c' := by
    simp [modifyStack, Roster.stack?_modify_self, hc]
  unfold frame
  dsimp only
  split
  · exact h1.trans (write_touches hc' k m ret)
  · exact h1

end Tracer

namespace Call
variable {c : Call} {slot : Slot} {epoch : UInt64} {t : Tracer} {s : CallStack} {fresh : Bool}
open Tracer

theorem greet_touches (h : t.roster.stack? slot = some s) :
    Touches slot epoch t (c.greet t epoch s fresh) := by
  unfold greet
  split
  · split
    · exact (writeCreated_touches h).trans notify_touches
    · exact notify_touches
  · exact .refl t

theorem enter_touches (epoch : UInt64) (o : Opening) : Touches slot epoch t (c.enter t epoch slot o) := by
  rcases h : t.roster.stack? slot with _ | s
  · simp only [enter, h]; exact .refl t
  · rw [enter_eq h]
    exact frame_touches h (o.push_no s) (o.push_guard s) ..

theorem exit_touches : Touches slot epoch t (c.exit t epoch slot) := by
  rcases h : t.roster.stack? slot with _ | s
  · simp only [exit, h]; exact .refl t
  · rw [exit_eq h]
    exact frame_touches h (c.hook.pop_no s) (c.hook.pop_guard s) ..

theorem invoke_touches (o : Opening) : Touches slot epoch t (c.invoke t epoch slot o).1 := by
  unfold invoke
  split
  · exact recordInvocation_touches _
  · exact (recordInvocation_touches _).trans (enter_touches epoch o)

theorem act_touches : Touches slot epoch t (c.act t epoch slot fresh).1 := by
  rcases h : t.roster.stack? slot with _ | s
  · simp only [act, h]; exact .refl t
  · have hgreet : Touches slot epoch t (c.greet t epoch s fresh) := greet_touches h
    have hs : (c.greet t epoch s fresh).roster.stack? slot = some s := by rw [greet_roster, h]
    rw [act_eq h]
    split
    · rename_i o _
      have hprepare := hgreet.trans (modifyStack_touches (f := fun _ => o.prepare s) fun d hd => by
        rw [hs] at hd; cases hd; exact ⟨o.prepare_no s, o.prepare_guard s⟩)
      dsimp only
      split
      · exact hprepare.trans (invoke_touches o)
      · exact hprepare.trans (enter_touches epoch o)
    · split
      · exact exit_touches
      · exact hgreet

end Call

end MethodTrace
