import MethodTrace.Proofs.Footprint
import MethodTrace.Proofs.Scribe

/-!
# What a call writes

A call that no seal keeps out and whose record is not dropped does to its stack and writes what
`Call.deed` says (`act_cases`, `enter_spec`). A call that registered its thread says so first.
-/

namespace MethodTrace

namespace Tracer
variable {t : Tracer} {epoch : UInt64} {slot : Slot} {s : CallStack}

/-- Who writes for the thread of number `no`. -/
def scribe (t : Tracer) (no : ThreadNo) : Scribe := ⟨no, t.depthLimit, t.captureReturns⟩

/-- The records in the queue but for their times. -/
def written (t : Tracer) : List Record := t.queue.records.toList.map Record.timeless

theorem frame_stack (h : t.roster.stack? slot = some s) (s' : CallStack) (d : UInt32) (k : Kind)
    (m : MethodId) (ret : Option ReturnValue) :
    (t.frame epoch slot s' d k m ret).roster.stack? slot = some s' := by
  have : (t.modifyStack slot fun _ => s').roster.stack? slot = some s' := by
    simp [modifyStack, Roster.stack?_modify_self, h]
  unfold frame
  dsimp only
  split <;> exact this

theorem frame_written (hk : t.queue.keepsOut epoch = false) {s' : CallStack} {d : UInt32} {k : Kind}
    {m : MethodId} {ret : Option ReturnValue}
    (hd : (t.frame epoch slot s' d k m ret).queue.dropped = t.queue.dropped) :
    (t.frame epoch slot s' d k m ret).written =
      t.written ++ (t.scribe s'.no).frame d.toNat k m ret := by
  unfold frame at hd ⊢
  dsimp only at hd ⊢
  by_cases hdepth : d ≤ t.depthLimit
  · have hrec : (t.modifyStack slot fun _ => s').recordsDepth d = true := decide_eq_true hdepth
    have hle : d.toNat ≤ (t.scribe s'.no).limit.toNat := UInt32.le_iff_toNat_le.mp hdepth
    rw [if_pos hrec] at hd ⊢
    rw [Scribe.frame, if_pos hle, written, written]
    rw [show ((t.modifyStack slot fun _ => s').write epoch s'.no k m ret).queue =
      t.queue.append epoch (t.frameRecord s'.no k m ret) from rfl] at hd ⊢
    rw [Queue.append_records_of_dropped _ hk hd, List.map_append]
    rfl
  · have hrec : (t.modifyStack slot fun _ => s').recordsDepth d = false := decide_eq_false hdepth
    have hle : ¬ d.toNat ≤ (t.scribe s'.no).limit.toNat :=
      fun h => hdepth (UInt32.le_iff_toNat_le.mpr h)
    rw [hrec] at hd ⊢
    rw [Scribe.frame, if_neg hle, List.append_nil]
    rfl

end Tracer

namespace Call
variable {c : Call} {t : Tracer} {epoch : UInt64} {slot : Slot} {o : Opening} {s : CallStack}
  {fresh : Bool}

@[simp] theorem greet_dropped : (c.greet t epoch s fresh).queue.dropped = t.queue.dropped := by
  unfold greet
  split
  · split <;> simp [Tracer.notify, Tracer.writeCreated]
  · rfl

theorem greet_written (hk : t.queue.keepsOut epoch = false) :
    (c.greet t epoch s fresh).written = t.written ++ c.greeting (t.scribe s.no) fresh := by
  have hnotify : ∀ t : Tracer, t.notify.written = t.written := fun t => by
    simp [Tracer.written, Tracer.notify]
  unfold greet greeting
  cases c.hook.enrolls with
  | false => simp
  | true =>
    cases fresh with
    | false => simp [hnotify]
    | true =>
      simp only [↓reduceIte, Bool.and_self, hnotify]
      simp only [Tracer.written, Tracer.writeCreated, Queue.appendControl_records_of_open _ hk,
        List.map_append]
      rfl

theorem enter_stack (h : t.roster.stack? slot = some s) :
    (c.enter t epoch slot o).roster.stack? slot = some (o.push s) := by
  rw [enter_eq h]
  exact Tracer.frame_stack h ..

theorem enter_written (h : t.roster.stack? slot = some s) (hk : t.queue.keepsOut epoch = false)
    (hd : (c.enter t epoch slot o).queue.dropped = t.queue.dropped) :
    (c.enter t epoch slot o).written =
      t.written ++ (t.scribe s.no).frame (o.push s).depth.toNat o.kind c.method none := by
  rw [enter_eq h] at hd ⊢
  rw [Tracer.frame_written hk hd, Opening.push_no]

/-- A call either does what it has to do, or pauses before its frame is opened. -/
theorem act_cases (c : Call) (epoch : UInt64) (fresh : Bool) (h : t.roster.stack? slot = some s) :
    ((c.act t epoch slot fresh).2 = .closing slot ∧
      (c.act t epoch slot fresh).1.roster.stack? slot = some (c.deed (t.scribe s.no) s).1 ∧
      (t.queue.keepsOut epoch = false →
        (c.act t epoch slot fresh).1.queue.dropped = t.queue.dropped →
        (c.act t epoch slot fresh).1.written =
          t.written ++ c.greeting (t.scribe s.no) fresh ++ (c.deed (t.scribe s.no) s).2)) ∨
    ∃ o, (c.act t epoch slot fresh).2 = .expanding epoch slot o ∧ c.hook.opening? s = some o ∧
      (c.act t epoch slot fresh).1.roster.stack? slot = some (o.prepare s) ∧
      (t.queue.keepsOut epoch = false →
        (c.act t epoch slot fresh).1.written = t.written ++ c.greeting (t.scribe s.no) fresh) := by
  have hgreet : (c.greet t epoch s fresh).roster.stack? slot = some s := by rw [greet_roster, h]
  have hscribe : (c.greet t epoch s fresh).scribe s.no = t.scribe s.no := by
    have : Tracer.Touches slot epoch t (c.greet t epoch s fresh) := greet_touches h
    simp only [Tracer.scribe, this.depthLimit, this.captureReturns]
  have hkeeps : t.queue.keepsOut epoch = false →
      (c.greet t epoch s fresh).queue.keepsOut epoch = false := fun hk => by
    rw [Queue.keepsOut_congr (greet_touches h).closedFrom, hk]
  rw [act_eq h]
  rcases ho : c.hook.opening? s with _ | o
  · refine .inl ⟨rfl, ?_⟩
    cases he : c.hook.isExit with
    | false =>
      simp only [deed, ho, he, Bool.false_eq_true, ↓reduceIte, List.append_nil]
      exact ⟨hgreet, fun hk _ => greet_written hk⟩
    | true =>
      simp only [deed, ho, he, ↓reduceIte, greeting_of_isExit he, List.append_nil]
      rw [exit_eq h]
      refine ⟨Tracer.frame_stack h .., fun hk hd => ?_⟩
      rw [Tracer.frame_written hk hd, Hook.pop_no]
  · -- the tracer that the frame is opened in, or the pause begins in
    have key : ∀ t' : Tracer, t'.roster.stack? slot = some (o.prepare s) →
        t'.scribe s.no = t.scribe s.no → (t.queue.keepsOut epoch = false →
          t'.queue.keepsOut epoch = false ∧
            t'.written = t.written ++ c.greeting (t.scribe s.no) fresh) →
        t'.queue.dropped = t.queue.dropped →
        (c.enter t' epoch slot o).roster.stack? slot = some (c.deed (t.scribe s.no) s).1 ∧
        (t.queue.keepsOut epoch = false →
          (c.enter t' epoch slot o).queue.dropped = t.queue.dropped →
          (c.enter t' epoch slot o).written =
            t.written ++ c.greeting (t.scribe s.no) fresh ++ (c.deed (t.scribe s.no) s).2) := by
      intro t' hs hscribe' hwritten hdropped
      simp only [deed, ho]
      refine ⟨enter_stack hs, fun hk hd => ?_⟩
      rw [enter_written hs (hwritten hk).1 (hd.trans hdropped.symm), (hwritten hk).2,
        Opening.prepare_no, hscribe']
    have hprepared : ((c.greet t epoch s fresh).modifyStack slot
        fun _ => o.prepare s).roster.stack? slot = some (o.prepare s) := by
      simp [Tracer.modifyStack, Roster.stack?_modify_self, h]
    dsimp only
    split
    · unfold invoke
      split
      · exact .inr ⟨o, rfl, rfl, hprepared, greet_written⟩
      · exact .inl ⟨rfl, key _ hprepared hscribe (fun hk => ⟨hkeeps hk, greet_written hk⟩)
          greet_dropped⟩
    · exact .inl ⟨rfl, key _ hprepared hscribe (fun hk => ⟨hkeeps hk, greet_written hk⟩)
        greet_dropped⟩

end Call

end MethodTrace
