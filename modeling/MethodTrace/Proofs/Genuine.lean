import MethodTrace.Proofs.Codec
import MethodTrace.Proofs.Progress

/-!
# Records of events

All that the hooks and the control of a tracer put into its queue are records of events
(`Machine.Genuine`), so whoever takes them can decode them (`Record.Genuine.decode`). The queue itself
takes any record.
-/

namespace MethodTrace

/-- A record that an event has been encoded as. -/
def Record.Genuine (r : Record) : Prop := ∃ e : Event, e.encode = r

theorem Event.genuine_encode (e : Event) : e.encode.Genuine := ⟨e, rfl⟩

theorem Record.Genuine.decode {r : Record} (h : r.Genuine) : ∃ e, Event.decode r = .ok e := by
  obtain ⟨e, rfl⟩ := h
  exact ⟨_, e.decode_encode⟩

/-- A queue with records of events only. -/
def Queue.Genuine (q : Queue) : Prop := ∀ r ∈ q.records.toList, r.Genuine

namespace Queue.Genuine
variable {q q' : Queue} {r : Record}

theorem of_empty (h : q.records = #[]) : q.Genuine := by
  intro r hr
  rw [h] at hr
  cases hr

theorem congr (h : q.Genuine) (heq : q'.records = q.records) : q'.Genuine := by
  rw [Queue.Genuine, heq]
  exact h

/-- What may have been let in is the record of an event. -/
theorem extend (h : q.Genuine) (hr : r.Genuine)
    (heq : q'.records.toList = q.records.toList ∨ q'.records.toList = q.records.toList ++ [r]) :
    q'.Genuine := by
  intro s hs
  rcases heq with heq | heq
  · rw [heq] at hs
    exact h s hs
  · rw [heq, List.mem_append, List.mem_singleton] at hs
    rcases hs with hs | rfl
    · exact h s hs
    · exact hr

end Queue.Genuine

namespace Tracer
variable {t : Tracer}

theorem write_genuine (h : t.queue.Genuine) (epoch : UInt64) (no : ThreadNo) (k : Kind)
    (m : MethodId) (ret : Option ReturnValue) : (t.write epoch no k m ret).queue.Genuine :=
  h.extend (Event.genuine_encode _) (t.queue.append_records epoch (t.frameRecord no k m ret))

theorem writeCreated_genuine (h : t.queue.Genuine) (epoch : UInt64) (no : ThreadNo) :
    (t.writeCreated epoch no).queue.Genuine :=
  h.extend (Event.genuine_encode _) (t.queue.appendControl_records epoch _)

theorem notify_genuine (h : t.queue.Genuine) : t.notify.queue.Genuine :=
  h.congr (by simp [notify])

theorem frame_genuine (h : t.queue.Genuine) (epoch : UInt64) (slot : Slot) (s : CallStack)
    (d : UInt32) (k : Kind) (m : MethodId) (ret : Option ReturnValue) :
    (t.frame epoch slot s d k m ret).queue.Genuine := by
  unfold frame
  dsimp only
  split
  · exact write_genuine (t := t.modifyStack slot fun _ => s) h epoch s.no k m ret
  · exact h

end Tracer

namespace Call
variable {c : Call} {t : Tracer} {epoch : UInt64} {slot : Slot} {s : CallStack}

theorem greet_genuine (h : t.queue.Genuine) (epoch : UInt64) (s : CallStack) (fresh : Bool) :
    (c.greet t epoch s fresh).queue.Genuine := by
  unfold greet
  split
  · refine Tracer.notify_genuine ?_
    split
    · exact Tracer.writeCreated_genuine h epoch s.no
    · exact h
  · exact h

theorem enter_genuine (h : t.queue.Genuine) (epoch : UInt64) (slot : Slot) (o : Opening) :
    (c.enter t epoch slot o).queue.Genuine := by
  rcases hs : t.roster.stack? slot with _ | s
  · simp only [enter, hs]
    exact h
  · rw [enter_eq hs]
    exact Tracer.frame_genuine h epoch slot (o.push s) _ _ _ _

theorem exit_genuine (h : t.queue.Genuine) (epoch : UInt64) (slot : Slot) :
    (c.exit t epoch slot).queue.Genuine := by
  rcases hs : t.roster.stack? slot with _ | s
  · simp only [exit, hs]
    exact h
  · rw [exit_eq hs]
    exact Tracer.frame_genuine h epoch slot (c.hook.pop s) _ _ _ _

theorem invoke_genuine (h : t.queue.Genuine) (epoch : UInt64) (slot : Slot) (o : Opening) :
    (c.invoke t epoch slot o).1.queue.Genuine := by
  unfold invoke
  split
  · exact h
  · exact enter_genuine (t := t.recordInvocation c.method) h epoch slot o

theorem act_genuine (h : t.queue.Genuine) (epoch : UInt64) (slot : Slot) (fresh : Bool) :
    (c.act t epoch slot fresh).1.queue.Genuine := by
  rcases hs : t.roster.stack? slot with _ | s
  · simp only [act, hs]
    exact h
  have hgreet : (c.greet t epoch s fresh).queue.Genuine := greet_genuine h epoch s fresh
  rw [act_eq hs]
  split
  · rename_i o _
    have hprepared : ((c.greet t epoch s fresh).modifyStack slot
        fun _ => o.prepare s).queue.Genuine := hgreet
    dsimp only
    split
    · exact invoke_genuine hprepared epoch slot o
    · exact enter_genuine hprepared epoch slot o
  · split
    · exact exit_genuine h epoch slot
    · exact hgreet

/-- One step of a call. -/
theorem Goes.genuine {who : OsThread} {l l' : Local} {stage stage' : Stage}
    (hgoes : c.Goes who l stage l' stage') (h : l.tracer.queue.Genuine) :
    l'.tracer.queue.Genuine := by
  cases hgoes with
  | @act t _ epoch slot fresh => exact act_genuine h epoch slot fresh
  | @tell t _ epoch slot o => exact enter_genuine h epoch slot o
  | _ => exact h

end Call

namespace Machine
variable {m : Machine}

/-- All records that were ever let in are records of events. -/
structure Genuine (m : Machine) : Prop where
  past : ∀ r ∈ m.past, r.Genuine
  queue : m.tracer.queue.Genuine

namespace Genuine

theorem new (id : Nat) (s : Settings) (hasHandler : Bool) :
    (Machine.new (.new id s hasHandler)).Genuine :=
  ⟨List.forall_mem_nil _, .of_empty rfl⟩

theorem history (h : m.Genuine) : ∀ r ∈ m.history, r.Genuine := by
  intro r hr
  exact (List.mem_append.mp hr).elim (h.past r) (h.queue r)

theorem step (h : m.Genuine) (x : Move) : (m.step x).Genuine := by
  cases x with
  | call who c counted =>
    by_cases hr : m.ready who.id = true
    · obtain ⟨l, stage, hgoes, hm⟩ := call_goes c counted hr
      rw [hm]
      refine ⟨?_, ?_⟩
      · simpa [put] using h.past
      · simpa only [put, Activity.settle_queue] using hgoes.genuine h.queue
    · rw [Machine.step, Machine.call, if_neg hr]
      exact h
  | advance who =>
    rcases hact : m.active who.id with _ | ⟨a, rest⟩
    · rw [Machine.step, Machine.advance, hact]
      exact h
    · obtain ⟨l, stage, hgoes, hm⟩ := advance_goes hact
      rw [hm]
      refine ⟨h.past, ?_⟩
      simpa only [put, Activity.settle_queue] using hgoes.genuine h.queue
  | suspend =>
    rcases m.suspend_cases with hm | ⟨-, hm⟩ <;> rw [Machine.step, hm]
    · exact h
    · exact ⟨h.past, h.queue.extend (Event.genuine_encode _) (Queue.close_records ..)⟩
  | resume =>
    rcases m.resume_cases with hm | ⟨-, hm⟩ <;> rw [Machine.step, hm]
    · exact h
    · exact ⟨h.past, h.queue.extend (Event.genuine_encode _) (Queue.reopen_records ..)⟩
  | reset l =>
    rw [Machine.step, Machine.reset]
    split
    · rename_i t ht
      obtain ⟨-, rfl⟩ := Tracer.reset_eq_ok ht
      exact ⟨h.history, .of_empty rfl⟩
    · exact h
  | drain => exact ⟨h.history, .of_empty rfl⟩
  | notify => exact ⟨h.past, Tracer.notify_genuine h.queue⟩
  | elsewhere i r =>
    rw [Machine.step]
    split
    · exact h
    · exact ⟨h.past, h.queue⟩
  | receive | exclude | look => exact ⟨h.past, h.queue⟩

theorem run (h : m.Genuine) (xs : List Move) : (m.run xs).Genuine := by
  induction xs generalizing m with
  | nil => exact h
  | cons x xs ih => exact ih (h.step x)

end Genuine

end Machine

end MethodTrace
