import MethodTrace.Proofs.Attribution
import MethodTrace.Proofs.Rounds

/-!
# Refusals in numbers

The tally of refusals tells what moves have come to (`Machine.refused_step`), so it is a sum over the
threads that have made them (`Machine.refused_run`). To a thread that calls one hook after the other
those are refused for a suspension that its journal marks. Of the others none is refused if the thread
is registered in the end, and otherwise those that would have registered it: that is an equation
between what has been refused, what is still in progress and what has been heard, kept by every move
(`Machine.Plain.denied_step`).
-/

namespace MethodTrace

namespace Tally
variable {t : Tally} {e e' : HookError}

/-- How often hooks have been refused for a reason. The refusals of records are counted elsewhere. -/
def refused (t : Tally) : HookError → UInt64
  | .admissionDenied => t.denied
  | .guarded => t.guarded
  | .suspended => t.suspended
  | .queue _ => 0

theorem refused_countAppended (t : Tally) (v : Except QueueError Unit) :
    (t.countAppended v).refused = t.refused := by
  funext e
  rcases v with (_ | _) | _ <;> cases e <;> rfl

theorem refused_countRefused (h : ∀ q, e' ≠ .queue q) :
    (t.countRefused e').refused e = t.refused e + if e' = e then 1 else 0 := by
  rcases e' with _ | _ | _ | q
  · cases e <;> simp [countRefused, refused]
  · cases e <;> simp [countRefused, refused]
  · cases e <;> simp [countRefused, refused]
  · exact absurd rfl (h q)

end Tally

/-! ### What moves have come to -/

namespace Call
variable {c : Call} {t : Tracer} {epoch : UInt64} {slot : Slot}

theorem frame_refused (t : Tracer) (epoch : UInt64) (slot : Slot) (s : CallStack) (d : UInt32)
    (k : Kind) (m : MethodId) (ret : Option ReturnValue) :
    (t.frame epoch slot s d k m ret).tally.refused = t.tally.refused := by
  unfold Tracer.frame
  dsimp only
  split
  · exact Tally.refused_countAppended ..
  · rfl

theorem enter_refused (c : Call) (t : Tracer) (epoch : UInt64) (slot : Slot) (o : Opening) :
    (c.enter t epoch slot o).tally.refused = t.tally.refused := by
  rcases h : t.roster.stack? slot with _ | s
  · simp only [enter, h]
  · rw [enter_eq h]
    exact frame_refused ..

theorem exit_refused (c : Call) (t : Tracer) (epoch : UInt64) (slot : Slot) :
    (c.exit t epoch slot).tally.refused = t.tally.refused := by
  rcases h : t.roster.stack? slot with _ | s
  · simp only [exit, h]
  · rw [exit_eq h]
    exact frame_refused ..

theorem greet_refused (c : Call) (t : Tracer) (epoch : UInt64) (s : CallStack) (fresh : Bool) :
    (c.greet t epoch s fresh).tally.refused = t.tally.refused := by
  have hcreated : (t.writeCreated epoch s.no).tally.refused = t.tally.refused := by
    refine (Tally.refused_countAppended ..).trans ?_
    funext e
    cases e <;> rfl
  unfold greet
  split
  · split
    · exact hcreated
    · rfl
  · rfl

theorem invoke_refused (c : Call) (t : Tracer) (epoch : UInt64) (slot : Slot) (o : Opening) :
    (c.invoke t epoch slot o).1.tally.refused = t.tally.refused := by
  unfold invoke
  split
  · rfl
  · exact c.enter_refused (t.recordInvocation c.method) epoch slot o

theorem act_refused (c : Call) (t : Tracer) (epoch : UInt64) (slot : Slot) (fresh : Bool) :
    (c.act t epoch slot fresh).1.tally.refused = t.tally.refused := by
  rcases h : t.roster.stack? slot with _ | s
  · simp only [act, h]
  have hgreet := c.greet_refused t epoch s fresh
  rw [act_eq h]
  split
  · rename_i o _
    have hprepare : ((c.greet t epoch s fresh).modifyStack slot fun _ => o.prepare s).tally.refused =
        t.tally.refused := hgreet
    dsimp only
    split
    · exact (c.invoke_refused ..).trans hprepare
    · exact (c.enter_refused ..).trans hprepare
  · split
    · exact c.exit_refused ..
    · exact hgreet

variable {who : OsThread} {l l' : Local} {stage stage' : Stage}

/-- A call does not count its refusal itself. -/
theorem Goes.refused (h : c.Goes who l stage l' stage') :
    l'.tracer.tally.refused = l.tracer.tally.refused := by
  cases h with
  | act => exact c.act_refused ..
  | tell => exact c.enter_refused ..
  | _ => rfl

theorem Goes.ne_called (h : c.Goes who l stage l' stage') : stage' ≠ .called := by
  cases h with
  | @act t _ epoch slot fresh =>
    rcases act_stage (c := c) t epoch slot fresh with hs | ⟨o, hs⟩ <;> rw [hs] <;>
      exact Stage.noConfusion
  | _ => exact Stage.noConfusion

/-- Whether tracing is suspended is found out with the first step. -/
theorem Goes.ne_suspended (h : c.Goes who l stage l' stage') (hover : stage.isOver = false)
    (hstage : stage ≠ .called) : stage' ≠ .returned (.error .suspended) := by
  cases h with
  | suspended => exact absurd rfl hstage
  | @act t _ epoch slot fresh =>
    rcases act_stage (c := c) t epoch slot fresh with hs | ⟨o, hs⟩ <;> rw [hs] <;>
      exact Stage.noConfusion
  | denied => split <;> simp
  | ended => cases hover
  | _ => simp

end Call

theorem Activity.settle_refused {a : Activity} (ha : a.counted = true) (t : Tracer) {stage : Stage}
    (hs : ∀ q, stage ≠ .returned (.error (.queue q))) (e : HookError) :
    (a.settle t stage).tally.refused e =
      t.tally.refused e + if stage.outcome a.call = .returned (.error e) then 1 else 0 := by
  cases stage with
  | returned result =>
    rcases result with e' | _
    · have he' : ∀ q, e' ≠ .queue q := fun q heq => hs q (by rw [heq])
      simp only [settle, ha, ↓reduceIte, Tracer.countResult, Tracer.countRefused, Stage.outcome,
        Outcome.returned.injEq, Except.error.injEq]
      exact Tally.refused_countRefused he'
    · simp [settle, Tracer.countResult, Stage.outcome]
  | _ => simp [settle, Stage.outcome]

namespace Machine
variable {m : Machine} {x : Move} {xs : List Move} {i : Nat} {e : HookError} {limit : UInt32}

/-- Threads call one hook after the other, and refusals are counted. -/
structure Plain (m : Machine) : Prop where
  single : ∀ i, (m.active i).length ≤ 1
  begun : ∀ i, ∀ a ∈ m.active i, a.stage ≠ .called
  counted : ∀ i, ∀ a ∈ m.active i, a.counted = true

namespace Plain

theorem of_idle (h : ∀ i, m.active i = []) : m.Plain := by
  refine ⟨fun i => ?_, fun i => ?_, fun i => ?_⟩ <;> rw [h i]
  · exact Nat.zero_le 1
  · exact List.forall_mem_nil _
  · exact List.forall_mem_nil _

theorem new (id : Nat) (s : Settings) (hasHandler : Bool) :
    (Machine.new (.new id s hasHandler)).Plain :=
  .of_idle fun _ => rfl

theorem congr {m' : Machine} (h : m.Plain) (ha : m'.active = m.active) : m'.Plain :=
  ⟨ha ▸ h.single, ha ▸ h.begun, ha ▸ h.counted⟩

theorem put (h : m.Plain) (i : Nat) (l : Local) {a : Activity} {stage : Stage}
    (hs : stage ≠ .called) (ha : a.counted = true) : (m.put i l (a.next stage)).Plain := by
  have hnext : (a.next stage).length ≤ 1 ∧ ∀ b ∈ a.next stage, b.stage ≠ .called ∧ b.counted = true := by
    refine ⟨by cases stage <;> exact Nat.le_of_ble_eq_true rfl, fun b hb => ?_⟩
    rw [(Activity.eq_of_mem_next hb).1]
    exact ⟨hs, ha⟩
  refine ⟨fun j => ?_, fun j => ?_, fun j => ?_⟩ <;> simp only [Machine.put, Function.update_apply] <;>
    split
  · exact hnext.1
  · exact h.single j
  · exact fun b hb => (hnext.2 b hb).1
  · exact h.begun j
  · exact fun b hb => (hnext.2 b hb).2
  · exact h.counted j

/-- A call in progress is the only one of its thread. -/
theorem rest_eq_nil (h : m.Plain) {a : Activity} {rest : List Activity}
    (hact : m.active i = a :: rest) : rest = [] := by
  have hsingle := h.single i
  rw [hact, List.length_cons] at hsingle
  exact List.length_eq_zero_iff.mp (by omega)

theorem step (h : m.Plain) (hx : m.Sequential x) (hcounted : x.isCounted = true) :
    (m.step x).Plain := by
  have hsame (hmover : x.mover? = none) : (m.step x).Plain :=
    h.congr (funext fun i => m.active_step_of_ne (hmover ▸ (Option.some_ne_none i).symm))
  cases x with
  | call who c counted =>
    have hidle : m.active who.id = [] := hx who.id rfl
    obtain ⟨l, stage, hgoes, heq⟩ := call_goes c counted (ready_of_idle hidle)
    rw [heq, hidle, List.append_nil]
    exact (h.congr (m.note_active who.id c)).put _ _ hgoes.ne_called hcounted
  | advance who =>
    rcases hact : m.active who.id with _ | ⟨a, rest⟩
    · rwa [Machine.step, advance_of_idle hact]
    · obtain ⟨l, stage, hgoes, heq⟩ := advance_goes hact
      rw [heq, h.rest_eq_nil hact, List.append_nil]
      exact h.put _ _ hgoes.ne_called (h.counted who.id a (by rw [hact]; exact List.mem_cons_self))
  | _ => exact hsame rfl

end Plain

theorem outcome_call {who : OsThread} (hidle : m.active who.id = []) (c : Call) (counted : Bool) :
    m.outcome (.call who c counted) =
      if m.tracer.suspension.suspended then .returned (.error .suspended) else .nothing := by
  obtain ⟨l, stage, hgoes, -, houtcome⟩ := call_outcome c counted (ready_of_idle hidle)
  rw [houtcome]
  cases hgoes with
  | suspended hnone => rw [if_pos (Suspension.openEpoch_eq_none_iff.mp hnone)]; rfl
  | start hsome =>
    rw [(Suspension.openEpoch_eq_some_iff.mp hsome).1, if_neg Bool.false_ne_true]
    rfl

theorem outcome_of_mover (hx : x.mover? = none) (e : HookError) :
    m.outcome x ≠ .returned (.error e) := by
  cases x <;> first | exact Outcome.noConfusion | cases hx

/-- The tally counts what moves have come to. -/
theorem refused_step (h : m.Plain) (hs : m.Steady) (hx : m.Sequential x)
    (hcounted : x.isCounted = true) (e : HookError) : (m.step x).tracer.tally.refused e =
      m.tracer.tally.refused e + if m.outcome x = .returned (.error e) then 1 else 0 := by
  have hsame (hmover : x.mover? = none) (ht : (m.step x).tracer.tally = m.tracer.tally) :
      (m.step x).tracer.tally.refused e =
        m.tracer.tally.refused e + if m.outcome x = .returned (.error e) then 1 else 0 := by
    rw [ht, if_neg (outcome_of_mover hmover e), UInt64.add_zero]
  cases x with
  | call who c counted =>
    have hidle : m.active who.id = [] := hx who.id rfl
    obtain ⟨l, stage, hgoes, heq, houtcome⟩ := call_outcome c counted (ready_of_idle hidle)
    have hcount : (⟨c, counted, .called⟩ : Activity).counted = true := hcounted
    rw [heq, houtcome, ← congrFun hgoes.refused e]
    exact Activity.settle_refused hcount l.tracer (hgoes.result_ne_queue rfl) e
  | advance who =>
    rcases hact : m.active who.id with _ | ⟨a, rest⟩
    · rw [step, advance_of_idle hact, outcome_of_idle hact, if_neg Outcome.noConfusion, UInt64.add_zero]
    · obtain ⟨l, stage, hgoes, heq, houtcome⟩ := advance_outcome hact
      have ha : a ∈ m.active who.id := by rw [hact]; exact List.mem_cons_self
      rw [heq, houtcome, ← congrFun hgoes.refused e]
      exact Activity.settle_refused (h.counted who.id a ha) l.tracer
        (hgoes.result_ne_queue (hs.going who.id a ha)) e
  | suspend => exact hsame rfl (by rcases m.suspend_cases with heq | ⟨-, heq⟩ <;> rw [step, heq])
  | resume => exact hsame rfl (by rcases m.resume_cases with heq | ⟨-, heq⟩ <;> rw [step, heq])
  | reset l =>
    refine hsame rfl ?_
    rcases hr : m.tracer.reset l with e | t
    · rw [step, reset, hr]
    · obtain ⟨-, rfl⟩ := Tracer.reset_eq_ok hr
      rw [step, reset, hr]
  | elsewhere j r => exact hsame rfl (by rw [step]; split <;> rfl)
  | _ => exact hsame rfl rfl

/-! ### Whose moves they were -/

/-- How often a thread's moves come to a refusal for a reason. -/
def refusedTo (i : Nat) (e : HookError) : Machine → List Move → Nat
  | _, [] => 0
  | m, x :: xs =>
    (if x.mover? = some i ∧ m.outcome x = .returned (.error e) then 1 else 0) +
      refusedTo i e (m.step x) xs

/-- Refusals are those of the threads that may call hooks. -/
theorem refused_run {n : Nat} (h : m.Plain) (hs : m.Steady) (hactive : ∀ j, m.active j ≠ [] → j < n)
    (hx : m.Along Sequential xs) (hcounted : ∀ x ∈ xs, x.isCounted = true)
    (hcall : ∀ x ∈ xs, ∀ j ∈ x.caller?, j < n) (e : HookError) :
    (m.run xs).tracer.tally.refused e =
      m.tracer.tally.refused e + .ofNat (∑ i ∈ Finset.range n, m.refusedTo i e xs) := by
  induction xs generalizing m with
  | nil => simp [refusedTo]
  | cons x xs ih =>
    obtain ⟨hcounted, hcounted'⟩ := List.forall_mem_cons.mp hcounted
    obtain ⟨hcall, hcall'⟩ := List.forall_mem_cons.mp hcall
    have hactive' (j : Nat) (hj : (m.step x).active j ≠ []) : j < n :=
      (active_step hj).elim (hactive j) (hcall j)
    have hmover (he : m.outcome x = .returned (.error e)) : ∃ j < n, x.mover? = some j := by
      cases x with
      | call who c counted => exact ⟨who.id, hcall _ rfl, rfl⟩
      | advance who =>
        refine ⟨who.id, hactive who.id fun hidle => ?_, rfl⟩
        rw [outcome, hidle] at he
        cases he
      | _ => cases he
    have hsum : ∑ i ∈ Finset.range n,
        (if x.mover? = some i ∧ m.outcome x = .returned (.error e) then 1 else 0) =
          if m.outcome x = .returned (.error e) then 1 else 0 := by
      by_cases he : m.outcome x = .returned (.error e)
      · obtain ⟨j, hj, hmover⟩ := hmover he
        simp [he, hmover, hj]
      · simp [he]
    rw [run_cons, ih (h.step hx.1 hcounted) (hs.step x) hactive' hx.2 hcounted' hcall',
      refused_step h hs hx.1 hcounted e]
    simp only [refusedTo, Finset.sum_add_distrib, hsum, UInt64.ofNat_add, UInt64.add_assoc]
    split <;> rfl

/-- A thread's journal marks the hooks that were refused because tracing was suspended. -/
theorem Plain.suspended_run (h : m.Plain) (hs : m.Steady) (hx : m.Along Sequential xs)
    (hcounted : ∀ x ∈ xs, x.isCounted = true) (i : Nat) :
    ((m.run xs).journal i).countP Prod.fst =
      (m.journal i).countP Prod.fst + m.refusedTo i .suspended xs := by
  induction xs generalizing m with
  | nil => rfl
  | cons x xs ih =>
    obtain ⟨hcounted, hcounted'⟩ := List.forall_mem_cons.mp hcounted
    have hjournal := journal_step hx.1 i
    have hstep : ((m.step x).journal i).countP Prod.fst = (m.journal i).countP Prod.fst +
        if x.mover? = some i ∧ m.outcome x = .returned (.error .suspended) then 1 else 0 := by
      rw [hjournal, List.countP_append]
      congr 1
      cases x with
      | call who c counted =>
        rw [outcome_call (hx.1 who.id rfl)]
        by_cases hi : who.id = i
        · cases m.tracer.suspension.suspended <;> simp [Move.callOf?, Move.mover?, hi]
        · simp [Move.callOf?, Move.mover?, hi]
      | advance who =>
        have hne : m.outcome (.advance who) ≠ .returned (.error .suspended) := by
          rcases hact : m.active who.id with _ | ⟨a, rest⟩
          · rw [outcome_of_idle hact]
            exact Outcome.noConfusion
          · obtain ⟨l, stage, hgoes, -, houtcome⟩ := advance_outcome hact
            have ha : a ∈ m.active who.id := by rw [hact]; exact List.mem_cons_self
            have hstage := hgoes.ne_suspended (hs.going who.id a ha) (h.begun who.id a ha)
            rw [houtcome]
            cases stage with
            | returned result =>
              rintro ⟨⟩
              exact hstage rfl
            | _ => exact Outcome.noConfusion
        rw [if_neg fun hand => hne hand.2]
        rfl
      | _ => rfl
    rw [run_cons, ih (h.step hx.1 hcounted) (hs.step x) hx.2 hcounted', hstep, refusedTo,
      Nat.add_assoc]

/-- To a thread that nothing shuts out no other hooks are refused. -/
theorem Plain.granted_run (h : m.Plain) (hx : m.Along Sequential xs)
    (hcounted : ∀ x ∈ xs, x.isCounted = true) (hgranted : m.Along (Granted i) xs)
    (he : e ≠ .suspended) : m.refusedTo i e xs = 0 := by
  induction xs generalizing m with
  | nil => rfl
  | cons x xs ih =>
    obtain ⟨hcounted, hcounted'⟩ := List.forall_mem_cons.mp hcounted
    have hnot : ¬(x.mover? = some i ∧ m.outcome x = .returned (.error e)) := by
      rintro ⟨hmover, houtcome⟩
      cases x with
      | call who c counted =>
        rw [outcome_call (hx.1 who.id rfl)] at houtcome
        split at houtcome
        · cases houtcome
          exact he rfl
        · cases houtcome
      | advance who =>
        cases hmover
        rcases hact : m.active who.id with _ | ⟨a, rest⟩
        · rw [outcome_of_idle hact] at houtcome
          cases houtcome
        · have hrefusal := hgranted.1 rfl (by rw [hact, h.rest_eq_nil hact]; rfl)
          rw [houtcome] at hrefusal
          cases hrefusal
      | _ => cases houtcome
    rw [refusedTo, if_neg hnot, ih (h.step hx.1 hcounted) hx.2 hcounted' hgranted.2]

/-! ### Threads that are never registered -/

theorem resets_of_isReset (hx : x.isReset = false) : m.resets x = false := by
  cases x <;> first | rfl | cases hx

theorem slot?_of_step (hx : x.isReset = false) (hnone : (m.step x).tracer.roster.slot? i = none) :
    m.tracer.roster.slot? i = none := by
  rcases hslot : m.tracer.roster.slot? i with _ | s
  · rfl
  · rw [slot?_step (resets_of_isReset hx) hslot] at hnone
    cases hnone

theorem slot?_of_run (hx : ∀ x ∈ xs, x.isReset = false)
    (hnone : (m.run xs).tracer.roster.slot? i = none) : m.tracer.roster.slot? i = none := by
  induction xs generalizing m with
  | nil => exact hnone
  | cons x xs ih =>
    obtain ⟨hx, hxs⟩ := List.forall_mem_cons.mp hx
    exact slot?_of_step hx (ih hxs hnone)

/-- A call of a thread that is not registered, and will not be, comes to nothing: it is refused if it
would have registered the thread. -/
theorem Plain.advance_stranger (h : m.Plain) (ho : m.Orderly limit) (hs : m.Steady) {who : OsThread}
    {a : Activity} {rest : List Activity} (hact : m.active who.id = a :: rest)
    (hnone : (m.step (.advance who)).tracer.roster.slot? who.id = none) :
    (m.step (.advance who)).active who.id = [] ∧ m.outcome (.advance who) =
      .returned (if a.call.hook.enrolls then .error .admissionDenied else .ok ()) := by
  have hstranger := slot?_of_step (x := .advance who) rfl hnone
  have ha : a ∈ m.active who.id := by rw [hact]; exact List.mem_cons_self
  have hslot (s : Slot) (heq : a.stage.slot? = some s) : False := by
    have := ho.slot who.id a ha s heq
    rw [hstranger] at this
    cases this
  have hover := hs.going who.id a ha
  have hbegun := h.begun who.id a ha
  obtain ⟨l, stage, hgoes, heq, houtcome⟩ := advance_outcome hact
  have hactive : (m.step (.advance who)).active who.id = a.next stage := by
    rw [heq, h.rest_eq_nil hact, List.append_nil]
    exact Function.update_self ..
  obtain ⟨c, counted, st⟩ := a
  rw [hactive, houtcome]
  cases hgoes with
  | suspended | start => exact absurd rfl hbegun
  | find hc => rw [(ho.recalls who.id).slot?_of_registered hc] at hstranger; cases hstranger
  | denied => exact ⟨rfl, rfl⟩
  | stranger _ henrolls => exact ⟨rfl, by rw [henrolls]; rfl⟩
  | register _ _ hr =>
    obtain ⟨-, -, q, -, hregister⟩ := Roster.register_of_slot_eq_some hstranger hr
    have hself : (m.step (.advance who)).tracer.roster = m.tracer.roster.enlist who := by
      rw [heq, hregister]
      exact Activity.settle_roster ..
    rw [hself, Roster.slot?_enlist_self who hstranger] at hnone
    cases hnone
  | refuse _ henrolls => exact ⟨rfl, by rw [henrolls]; rfl⟩
  | ended => cases hover
  | _ => exact (hslot _ rfl).elim

/-- The calls of a thread in progress that would register it. -/
def enrolling (m : Machine) (i : Nat) : Nat := (m.active i).countP fun a => a.call.hook.enrolls

theorem Plain.denied_step (h : m.Plain) (ho : m.Orderly limit) (hs : m.Steady)
    (hx : m.Sequential x) (hreset : x.isReset = false)
    (hnone : (m.step x).tracer.roster.slot? i = none) :
    (if x.mover? = some i ∧ m.outcome x = .returned (.error .admissionDenied) then 1 else 0) +
        (m.step x).enrolling i + (heard (m.journal i)).countP (fun c => c.hook.enrolls) =
      m.enrolling i + (heard ((m.step x).journal i)).countP fun c => c.hook.enrolls := by
  have hjournal := journal_step hx i
  by_cases hmover : x.mover? = some i
  · cases x with
    | call who c counted =>
      obtain rfl : who.id = i := Option.some.inj hmover
      have hidle : m.active who.id = [] := hx who.id rfl
      obtain ⟨stage, hcall, hstage⟩ := call_eq_put (ready_of_idle hidle) c counted
      have hactive : (m.step (.call who c counted)).active who.id =
          (⟨c, counted, .called⟩ : Activity).next stage := by
        rw [Machine.step, hcall, hidle, List.append_nil]
        exact Function.update_self ..
      rw [outcome_call hidle, hjournal, enrolling, hactive, enrolling, hidle, Move.callOf?, if_pos rfl]
      rcases hstage with ⟨hsuspended, rfl⟩ | ⟨hopen, epoch, rfl⟩
      · rw [hsuspended]
        simp [Activity.next, heard_append]
      · rw [hopen]
        simp [Activity.next, heard_append, Nat.add_comm, List.countP_cons]
    | advance who =>
      obtain rfl : who.id = i := Option.some.inj hmover
      have hsame : (m.step (.advance who)).journal who.id = m.journal who.id := by
        rw [hjournal]
        exact List.append_nil _
      rw [hsame]
      congr 1
      rcases hact : m.active who.id with _ | ⟨a, rest⟩
      · have hstep : m.step (.advance who) = m := advance_of_idle hact
        rw [outcome_of_idle hact, if_neg fun hand => Outcome.noConfusion hand.2, hstep, Nat.zero_add]
      · obtain ⟨hactive, houtcome⟩ := h.advance_stranger ho hs hact hnone
        rw [enrolling, hactive, houtcome, enrolling, hact, h.rest_eq_nil hact]
        cases henrolls : a.call.hook.enrolls <;> simp [henrolls, Move.mover?]
    | _ => cases hmover
  · have hcall : x.callOf? i = none := by
      cases x with
      | call who c counted => exact if_neg fun heq => hmover (congrArg some heq)
      | _ => rfl
    rw [hjournal, hcall, enrolling, m.active_step_of_ne hmover, if_neg fun hand => hmover hand.1,
      Nat.zero_add, Option.toList_none, List.map_nil, List.append_nil]
    rfl

/-- To a thread that is not registered in the end all hooks have been refused that would have
registered it and that were heard, and none for a guard. -/
theorem Plain.stranger_run (h : m.Plain) (ho : m.Orderly limit) (hs : m.Steady)
    (hx : m.Along Sequential xs) (hcounted : ∀ x ∈ xs, x.isCounted = true)
    (hreset : ∀ x ∈ xs, x.isReset = false) (hnone : (m.run xs).tracer.roster.slot? i = none) :
    m.refusedTo i .admissionDenied xs + (m.run xs).enrolling i +
        (heard (m.journal i)).countP (fun c => c.hook.enrolls) =
      m.enrolling i + ((heard ((m.run xs).journal i)).countP fun c => c.hook.enrolls) ∧
    m.refusedTo i .guarded xs = 0 := by
  induction xs generalizing m with
  | nil => exact ⟨by rw [refusedTo, run_nil, Nat.zero_add], rfl⟩
  | cons x xs ih =>
    obtain ⟨hcounted, hcounted'⟩ := List.forall_mem_cons.mp hcounted
    obtain ⟨hreset, hreset'⟩ := List.forall_mem_cons.mp hreset
    have hnone' : (m.step x).tracer.roster.slot? i = none := slot?_of_run hreset' hnone
    obtain ⟨hdenied, hguarded⟩ :=
      ih (h.step hx.1 hcounted) (ho.step x hreset) (hs.step x) hx.2 hcounted' hreset' hnone
    have hstep := h.denied_step ho hs hx.1 hreset hnone'
    have hnot : ¬(x.mover? = some i ∧ m.outcome x = .returned (.error .guarded)) := by
      rintro ⟨hmover, houtcome⟩
      cases x with
      | call who c counted =>
        rw [outcome_call (hx.1 who.id rfl)] at houtcome
        split at houtcome <;> cases houtcome
      | advance who =>
        cases hmover
        rcases hact : m.active who.id with _ | ⟨a, rest⟩
        · rw [outcome_of_idle hact] at houtcome
          cases houtcome
        · rw [(h.advance_stranger ho hs hact hnone').2] at houtcome
          split at houtcome <;> cases houtcome
      | _ => cases houtcome
    rw [run_cons, refusedTo, refusedTo, if_neg hnot, hguarded]
    exact ⟨by omega, rfl⟩

end Machine

end MethodTrace
