import MethodTrace.Proofs.Solo
import MethodTrace.Proofs.Standstill

/-!
# Refused calls and control operations

A call may find a slot for its thread before it is refused; that it leaves nothing behind needs two
facts about what can be reached: a thread that is registered never remembers that it is not
(`Roster.Knows`), and the guard of a thread that has just been registered is free. So a call that
nothing interrupts is refused before it has done anything (`Call.start_spec`). Past its guard a call
is never refused, and then it makes no difference whether refusals are counted (`Machine.hush`).
-/

namespace MethodTrace

/-- A refusal is counted under its reason and nowhere else. -/
theorem Tally.countRefused_eq {t : Tally} {e : HookError} (h : ∀ q, e ≠ .queue q) :
    t.countRefused e = { t with
      suspended := t.suspended + if e = .suspended then 1 else 0
      denied := t.denied + if e = .admissionDenied then 1 else 0
      guarded := t.guarded + if e = .guarded then 1 else 0 } := by
  cases e with
  | queue q => exact absurd rfl (h q)
  | _ => simp [countRefused]

/-! ### What a registered thread remembers -/

namespace Roster
variable {r r' : Roster} {i : Nat} {memory memory' : Memory} {st : Standing}

/-- A thread is not registered if it remembers so, of whatever generation the memory is. -/
def Knows (r : Roster) (i : Nat) (memory : Memory) : Prop :=
  ∀ c, memory = some c → c.roster = r.id → c.standing = .unregistered → r.slot? i = none

theorem Knows.congr (h : r.Knows i memory) (hid : r'.id = r.id)
    (hslot : r.slot? i = none → r'.slot? i = none) : r'.Knows i memory :=
  fun c hc hr hst => hslot (h c hc (hr.trans hid) hst)

theorem knows_memoryOf (h : st = .unregistered → r.slot? i = none) :
    r.Knows i (r.memoryOf st) := by
  intro c hc _ hst
  cases hc
  exact h hst

theorem Knows.consult (h : r.Knows i memory) (hc : r.consult i memory = (st, memory')) :
    (st = .unregistered → r.slot? i = none) ∧ r.Knows i memory' := by
  unfold Roster.consult at hc
  rcases hm : r.recollect memory with _ | st'
  · rw [hm] at hc
    cases hc
    have hlookup (hst : r.lookup i = .unregistered) : r.slot? i = none :=
      slot?_of_lookup_ne fun s hs => by rw [hst] at hs; cases hs
    exact ⟨hlookup, knows_memoryOf hlookup⟩
  · rw [hm] at hc
    cases hc
    obtain ⟨c, rfl, hr, -, rfl⟩ := recollect_eq_some hm
    exact ⟨h c rfl hr, h⟩

end Roster

theorem Call.Goes.knows {c : Call} {who : OsThread} {l l' : Local} {stage stage' : Stage}
    (h : c.Goes who l stage l' stage') (hk : l.tracer.roster.Knows who.id l.memory) :
    l'.tracer.roster.Knows who.id l'.memory := by
  cases h with
  | find hc | denied hc | stranger hc => exact (hk.consult hc).2
  | @register t memory memory' epoch slot hc _ hr =>
    have hnone := (hk.consult hc).1 rfl
    obtain ⟨-, -, q, -, heq⟩ := Roster.register_of_slot_eq_some hnone hr
    rw [heq]
    exact Roster.knows_memoryOf (r := t.roster.enlist who) nofun
  | @refuse t memory memory' epoch hc _ hr =>
    have hnone := (hk.consult hc).1 rfl
    rw [(Roster.register_of_slot_eq_none hnone hr).2]
    exact Roster.knows_memoryOf nofun
  | act =>
    rw [act_touches.roster]
    exact hk
  | @tell t memory epoch slot o =>
    rw [(enter_touches epoch o).roster]
    exact hk
  | _ => exact hk

namespace Machine
variable {m : Machine}

theorem knows_put {who : OsThread} {c : Call} {stage stage' : Stage} {l : Local}
    (h : ∀ i, m.tracer.roster.Knows i (m.memory i))
    (hgoes : c.Goes who ⟨m.tracer, m.memory who.id⟩ stage l stage') (j : Nat) :
    l.tracer.roster.Knows j (Function.update m.memory who.id l.memory j) := by
  by_cases hj : j = who.id
  · rw [hj, Function.update_self]
    exact hgoes.knows (h who.id)
  · rw [Function.update_of_ne hj]
    exact (h j).congr hgoes.roster_same.1 fun hnone => (hgoes.slot?_of_ne hj).trans hnone

/-- Also across resets, however many: who is registered remembers it, or has learned something else. -/
theorem knows_step (h : ∀ i, m.tracer.roster.Knows i (m.memory i)) (x : Move) (j : Nat) :
    (m.step x).tracer.roster.Knows j ((m.step x).memory j) := by
  have hremember {i : Nat} {memory : Memory} {r : Roster} (hr : r.Knows i memory)
      (hrest : ∀ j, r.Knows j (m.memory j)) : r.Knows j (Function.update m.memory i memory j) := by
    by_cases hj : j = i
    · rw [hj, Function.update_self]
      exact hr
    · rw [Function.update_of_ne hj]
      exact hrest j
  cases x with
  | call who c counted =>
    by_cases hr : m.ready who.id = true
    · obtain ⟨l, stage, hgoes, heq⟩ := call_goes c counted hr
      rw [heq]
      simpa [put] using knows_put h hgoes j
    · rw [step, Machine.call, if_neg hr]
      exact h j
  | advance who =>
    rcases hact : m.active who.id with _ | ⟨a, rest⟩
    · rw [step, advance_of_idle hact]
      exact h j
    · obtain ⟨l, stage, hgoes, heq⟩ := advance_goes hact
      rw [heq]
      simpa [put] using knows_put h hgoes j
  | suspend =>
    rcases m.suspend_cases with heq | ⟨-, heq⟩ <;> rw [step, heq]
    · exact h j
    · rw [Suspension.bumpAll_eq]
      exact h j
  | resume =>
    rcases m.resume_cases with heq | ⟨-, heq⟩ <;> rw [step, heq]
    · exact h j
    · rw [Suspension.releaseAll_eq]
      exact h j
  | reset l =>
    rcases hr : m.tracer.reset l with e | t
    · rw [step, Machine.reset, hr]
      exact h j
    · obtain ⟨-, rfl⟩ := Tracer.reset_eq_ok hr
      rw [step, Machine.reset, hr]
      exact (h j).congr rfl fun _ => rfl
  | exclude i =>
    refine hremember (Roster.knows_memoryOf fun hst => ?_) h
    cases hst
  | look i =>
    rcases hc : m.tracer.roster.consult i (m.memory i) with ⟨st, memory⟩
    rw [step, m.tracer.look_memory, hc]
    exact hremember ((h i).consult hc).2 h
  | elsewhere i r =>
    rw [step]
    split
    · exact h j
    · rename_i hr
      refine hremember (fun c hc hid => ?_) h
      cases hc
      exact absurd hid hr
  | drain | notify | receive => exact h j

theorem knows_run (h : ∀ i, m.tracer.roster.Knows i (m.memory i)) (xs : List Move) :
    ∀ i, (m.run xs).tracer.roster.Knows i ((m.run xs).memory i) := by
  induction xs generalizing m with
  | nil => exact h
  | cons x xs ih => exact ih (knows_step h x)

end Machine

/-! ### Why calls are refused -/

/-- Whether a call has come to its end because it was refused. -/
def Stage.isRefused : Stage → Bool
  | returned (.error _) => true
  | _ => false

namespace Call

/-- Why a call is refused, if it is: because tracing is suspended, otherwise because its thread is
not admitted, otherwise because the guard is held of a stack that the call concerns. -/
def refusal (c : Call) (t : Tracer) (i : Nat) (memory : Memory) : Option HookError :=
  if t.suspension.suspended then some .suspended
  else
    match (t.roster.consult i memory).1 with
    | .denied => if c.hook.enrolls then some .admissionDenied else none
    | .unregistered =>
      if c.hook.enrolls ∧ (t.quota.remaining = 0 ∨ i ∈ t.roster.excluded) then some .admissionDenied
      else none
    | .registered slot =>
      if (t.roster.stack? slot).any fun s => c.hook.concerns s && s.guarded then some .guarded
      else none

section start
variable {c : Call} {who : OsThread} {l l' : Local} {stage stage' : Stage} {epoch : UInt64}
  {slot : Slot} {fresh : Bool} {n : Nat}

theorem steps_succ (hp : stage.paused = false) :
    c.steps who (n + 1) (l, stage) = c.steps who n (c.advance who l stage) := by
  rw [steps, if_neg (by rw [hp]; exact Bool.false_ne_true)]

theorem steps_returned (result : Except HookError Unit) :
    c.steps who n (l, .returned result) = (l, .returned result) := by
  cases n <;> rfl

theorem Goes.guards_or_ok (h : c.Goes who l stage l' stage') (hg : stage.guards = true) :
    stage'.guards = true ∨ stage' = .returned (.ok ()) := by
  cases h with
  | @act t memory epoch slot fresh =>
    rcases act_stage (c := c) t epoch slot fresh with hs | ⟨o, hs⟩ <;> rw [hs] <;> exact .inl rfl
  | tell => exact .inl rfl
  | close => exact .inr rfl
  | _ => cases hg

theorem isRefused_of_guards_or_ok (h : stage.guards = true ∨ stage = .returned (.ok ())) :
    stage.isRefused = false := by
  rcases h with h | rfl
  · cases stage <;> first | rfl | cases h
  · rfl

/-- Past its guard no call is refused. -/
theorem steps_of_guards {x : Local × Stage}
    (h : x.2.guards = true ∨ x.2 = .returned (.ok ())) :
    (c.steps who n x).2.isRefused = false := by
  induction n generalizing x with
  | zero => exact isRefused_of_guards_or_ok h
  | succ n ih =>
    rw [steps]
    split
    · exact isRefused_of_guards_or_ok h
    · rcases h with hg | hok
      · exact ih ((c.goes_advance x.1 x.2).guards_or_ok hg)
      · rename_i hp
        rw [hok] at hp
        exact absurd rfl hp

/-- A call that has found a slot is refused if the guard is held of a stack that it concerns. -/
theorem steps_enrolled (c : Call) (who : OsThread) (n : Nat) (l : Local) (epoch : UInt64) (slot : Slot)
    (fresh : Bool) : let x := c.steps who (n + 2) (l, .enrolled epoch slot fresh)
    if (l.tracer.roster.stack? slot).any fun s => c.hook.concerns s && s.guarded then
      x = (l, .returned (.error .guarded))
    else x.2.isRefused = false := by
  obtain ⟨t, memory⟩ := l
  rcases hstack : t.roster.stack? slot with _ | s
  · simp [steps, Stage.paused, advance, hstack, Stage.isRefused]
  cases hc : c.hook.concerns s with
  | false => simp [steps, Stage.paused, advance, hstack, hc, Stage.isRefused]
  | true =>
    cases hg : s.guarded with
    | true =>
      simp [steps, Stage.paused, advance, hstack, hc, CallStack.takeGuard, hg, steps_returned]
    | false =>
      simp only [Option.any_some, hc, hg, Bool.and_false, Bool.false_eq_true, ↓reduceIte, steps,
        Stage.paused, advance, hstack, Option.bind_some, CallStack.takeGuard]
      exact steps_of_guards (.inl rfl)

/-- What a call comes to that nothing interrupts. -/
theorem start_guards_or_isOver (c : Call) (who : OsThread) (l : Local) :
    (c.start who l).2.guards = true ∨ (c.start who l).2.isOver = true := by
  obtain ⟨k, -, heq, hpause⟩ := c.steps_eq_after who 6 (l, .called)
  have hrank := c.le_rank_after who k (l, .called)
  rw [start, heq]
  generalize (c.after who k (l, .called)).2 = stage at hpause hrank
  cases stage with
  | guarding | expanding | closing => exact .inl rfl
  | returned => exact .inr rfl
  | _ =>
    rcases hpause with rfl | hpause
    · simp [Stage.rank] at hrank
    · cases hpause

/-- A call that nothing interrupts is refused for the reason there is, and has changed nothing then
but what its thread remembers; if there is no reason, it is not refused. -/
theorem start_spec (c : Call) (hk : l.tracer.roster.Knows who.id l.memory) :
    match c.refusal l.tracer who.id l.memory with
    | some e => ∃ memory, c.start who l = (⟨l.tracer, memory⟩, .returned (.error e))
    | none => (c.start who l).2.isRefused = false := by
  obtain ⟨t, memory⟩ := l
  cases hs : t.suspension.suspended with
  | true =>
    have hopen : t.suspension.openEpoch = none := Suspension.openEpoch_eq_none_iff.mpr hs
    have hstart : c.start who ⟨t, memory⟩ = (⟨t, memory⟩, .returned (.error .suspended)) := by
      rw [start, steps_succ rfl]
      simp only [advance, hopen, steps_returned]
    rw [refusal, if_pos hs]
    exact ⟨memory, hstart⟩
  | false =>
    have hopen : t.suspension.openEpoch = some t.suspension.epoch :=
      Suspension.openEpoch_eq_some_iff.mpr ⟨hs, rfl⟩
    have hstart : c.start who ⟨t, memory⟩ =
        c.steps who 4 (c.enroll who ⟨t, memory⟩ t.suspension.epoch) := by
      rw [start, steps_succ rfl]
      simp only [advance, hopen]
      rw [steps_succ rfl]
      rfl
    rw [hstart, refusal, if_neg (by rw [hs]; exact Bool.false_ne_true)]
    generalize t.suspension.epoch = epoch
    rcases hc : t.roster.consult who.id memory with ⟨slot | _ | _, memory'⟩
    · simp only [enroll, hc]
      have hspec := c.steps_enrolled who 2 ⟨t, memory'⟩ epoch slot false
      by_cases hg : (t.roster.stack? slot).any (fun s => c.hook.concerns s && s.guarded) = true
      · rw [if_pos hg] at hspec ⊢
        exact ⟨memory', hspec⟩
      · rw [if_neg hg] at hspec ⊢
        exact hspec
    · cases he : c.hook.enrolls with
      | false =>
        simp only [enroll, hc, he, Bool.false_eq_true, false_and, ↓reduceIte, steps_returned]
        rfl
      | true =>
        simp only [enroll, hc, he, true_and, ↓reduceIte]
        have hnone := (hk.consult hc).1 rfl
        rcases Roster.register_of_slot?_eq_none hnone t.quota memory' with
          ⟨q, hq, hexcluded, heq⟩ | ⟨hdenies, heq⟩
        · have hroom : ¬(t.quota.remaining = 0 ∨ who.id ∈ t.roster.excluded) := by
            have hpos := Quota.toNat_of_take hq
            rintro (hzero | hmem)
            · rw [hzero] at hpos
              cases hpos
            · exact hexcluded hmem
          rw [if_neg hroom, heq]
          -- the guard of a new stack is free
          have hspec := c.steps_enrolled who 2 ⟨{ t with roster := t.roster.enlist who, quota := q },
            t.roster.memoryOf (.registered t.roster.callStacks.size)⟩ epoch t.roster.callStacks.size true
          have hfree : (CallStack.new ⟨t.roster.nextNo⟩ who.name).guarded = false := rfl
          rw [t.roster.stack?_enlist_size who, Option.any_some, hfree, Bool.and_false,
            if_neg Bool.false_ne_true] at hspec
          exact hspec
        · rw [if_pos hdenies, heq]
          exact ⟨_, rfl⟩
    · cases he : c.hook.enrolls with
      | false => simp [enroll, hc, he, steps_returned, Stage.isRefused]
      | true => simp [enroll, hc, he, steps_returned]

theorem start_eq_error_iff (hk : l.tracer.roster.Knows who.id l.memory) (e : HookError) :
    (c.start who l).2 = .returned (.error e) ↔ c.refusal l.tracer who.id l.memory = some e := by
  have hspec := start_spec c hk
  generalize c.refusal l.tracer who.id l.memory = reason at hspec ⊢
  rcases reason with _ | e'
  · constructor
    · intro hx
      rw [hx] at hspec
      cases hspec
    · intro hx
      cases hx
  · obtain ⟨memory, hx⟩ := hspec
    rw [hx]
    constructor
    · rintro ⟨⟩
      rfl
    · rintro ⟨⟩
      rfl

theorem start_tracer_of_error (hk : l.tracer.roster.Knows who.id l.memory) {e : HookError}
    (hx : (c.start who l).2 = .returned (.error e)) : (c.start who l).1.tracer = l.tracer := by
  have hspec := start_spec c hk
  rw [(start_eq_error_iff hk e).mp hx] at hspec
  obtain ⟨memory, hx⟩ := hspec
  rw [hx]

end start

section refusal
variable {c : Call} {t : Tracer} {i : Nat} {memory : Memory}

theorem refusal_eq_suspended_iff :
    c.refusal t i memory = some .suspended ↔ t.suspension.suspended = true := by
  unfold refusal
  cases t.suspension.suspended with
  | true => simp
  | false => rcases (t.roster.consult i memory).1 with slot | _ | _ <;> simp

theorem refusal_eq_admissionDenied_iff : c.refusal t i memory = some .admissionDenied ↔
    t.suspension.suspended = false ∧ c.hook.enrolls = true ∧
      ((t.roster.consult i memory).1 = .denied ∨ (t.roster.consult i memory).1 = .unregistered ∧
        (t.quota.remaining = 0 ∨ i ∈ t.roster.excluded)) := by
  unfold refusal
  cases t.suspension.suspended with
  | true => simp
  | false =>
    rcases (t.roster.consult i memory).1 with slot | _ | _ <;> simp [or_iff_not_imp_left]

theorem refusal_eq_guarded_iff : c.refusal t i memory = some .guarded ↔
    t.suspension.suspended = false ∧ ∃ slot s, (t.roster.consult i memory).1 = .registered slot ∧
      t.roster.stack? slot = some s ∧ c.hook.concerns s = true ∧ s.guarded = true := by
  unfold refusal
  cases t.suspension.suspended with
  | true => simp
  | false => rcases (t.roster.consult i memory).1 with slot | _ | _ <;> simp [Option.any_eq_true]

theorem refusal_ne_queue (e : QueueError) : c.refusal t i memory ≠ some (.queue e) := by
  unfold refusal
  cases t.suspension.suspended with
  | true => simp
  | false => rcases (t.roster.consult i memory).1 with slot | _ | _ <;> simp

end refusal

/-- Until it takes its guard, a call changes nothing but what its thread remembers, unless it
registers its thread. -/
theorem Goes.tracer_of_not_guards {c : Call} {who : OsThread} {l l' : Local} {stage stage' : Stage}
    (h : c.Goes who l stage l' stage') (hg : stage.guards = false) (hg' : stage'.guards = false) :
    l'.tracer = l.tracer ∨ ∃ epoch slot, stage' = .enrolled epoch slot true := by
  cases h with
  | register => exact .inr ⟨_, _, rfl⟩
  | @refuse t memory memory' epoch hc _ hr =>
    rcases t.roster.register_cases who t.quota memory' with
      ⟨s', hs', heq⟩ | ⟨q', hnone, heq⟩ | heq <;> rw [heq] at hr ⊢ <;> cases hr
    exact .inl rfl
  | guard => cases hg'
  | act | tell | close => cases hg
  | _ => exact .inl rfl

end Call

/-! ### Calls as moves -/

namespace Machine
variable {m m' : Machine} {who : OsThread} {a : Activity} {rest : List Activity} {x : Local × Stage}

/-- The innermost call of a thread has come to `x`; `rest` are the thread's other calls. -/
def comeTo (m : Machine) (i : Nat) (a : Activity) (rest : List Activity) (x : Local × Stage) :
    Machine :=
  m.put i ⟨a.settle x.1.tracer x.2, x.1.memory⟩ (a.next x.2 ++ rest)

theorem comeTo_step (hover : x.2.isOver = false) : (m.comeTo who.id a rest x).step (.advance who) =
    m.comeTo who.id a rest (a.call.advance who x.1 x.2) := by
  have hsettle : a.settle x.1.tracer x.2 = x.1.tracer := by
    rcases x with ⟨l, stage⟩
    cases stage <;> first | rfl | cases hover
  simp only [step, advance, comeTo, put, Activity.next_of_not_isOver hover, List.singleton_append,
    Function.update_self, proceed, hsettle, Function.update_idem]
  rfl

/-- Nothing comes between the steps of a call, up to its end or its pause. -/
theorem run_comeTo (m : Machine) (who : OsThread) (c : Call) (rest : List Activity) (n : Nat)
    (x : Local × Stage) : ∃ k, ∀ counted,
      (m.comeTo who.id ⟨c, counted, .called⟩ rest x).run (List.replicate k (.advance who)) =
        m.comeTo who.id ⟨c, counted, .called⟩ rest (c.steps who n x) := by
  induction n generalizing x with
  | zero => exact ⟨0, fun _ => rfl⟩
  | succ n ih =>
    by_cases hp : x.2.paused = true
    · refine ⟨0, fun _ => ?_⟩
      rw [Call.steps, if_pos hp]
      rfl
    · have hover : x.2.isOver = false := by
        rcases x with ⟨l, stage⟩
        cases stage <;> first | rfl | exact absurd rfl hp
      obtain ⟨k, hk⟩ := ih (c.advance who x.1 x.2)
      refine ⟨k + 1, fun counted => ?_⟩
      rw [List.replicate_succ, run_cons, comeTo_step hover, hk, Call.steps, if_neg hp]

/-- The call may be made while its thread is telling a first invocation. -/
theorem run_start (c : Call) (hr : m.ready who.id = true) : ∃ k, ∀ counted,
    (m.step (.call who c counted)).run (List.replicate k (.advance who)) =
      (m.note who.id c).comeTo who.id ⟨c, counted, .called⟩ (m.active who.id)
        (c.start who ⟨m.tracer, m.memory who.id⟩) := by
  have hcall (counted : Bool) : m.step (.call who c counted) =
      (m.note who.id c).comeTo who.id ⟨c, counted, .called⟩ (m.active who.id)
        (c.advance who ⟨m.tracer, m.memory who.id⟩ .called) := by
    simp only [step, call, hr, ↓reduceIte, proceed, note_tracer, note_memory]
    rfl
  obtain ⟨k, hk⟩ := (m.note who.id c).run_comeTo who c (m.active who.id) 5
    (c.advance who ⟨m.tracer, m.memory who.id⟩ .called)
  refine ⟨k, fun counted => ?_⟩
  rw [hcall, hk]
  exact congrArg _ (Call.steps_succ rfl).symm

end Machine

/-! ### Whether refusals are counted -/

/-- A call that is past its guard counts nothing any more. -/
def Activity.hush (a : Activity) : Activity := if a.stage.guards then { a with counted := false } else a

namespace Activity
variable {a : Activity} {stage : Stage} {t : Tracer}

@[simp] theorem hush_call (a : Activity) : a.hush.call = a.call := by unfold hush; split <;> rfl

@[simp] theorem hush_stage (a : Activity) : a.hush.stage = a.stage := by unfold hush; split <;> rfl

theorem map_hush_hush (calls : List Activity) :
    (calls.map hush).map hush = calls.map hush := by
  rw [List.map_map]
  refine List.map_congr_left fun a _ => ?_
  rw [Function.comp_apply, hush, hush_stage]
  split
  · rename_i hg
    rw [hush, if_pos hg]
  · rfl

theorem hush_of_guards {c : Call} {counted : Bool} (h : stage.guards = true) :
    (⟨c, counted, stage⟩ : Activity).hush = ⟨c, false, stage⟩ := if_pos h

theorem settle_uncounted (c : Call) (stage : Stage) (t : Tracer) (stage' : Stage) :
    (⟨c, false, stage⟩ : Activity).settle t stage' = t := by
  cases stage' <;> rfl

theorem settle_of_not_isRefused (a : Activity) (t : Tracer) (h : stage.isRefused = false) :
    a.settle t stage = t := by
  cases stage with
  | returned result =>
    rcases result with e | ⟨⟩
    · cases h
    · exact ite_self t
  | _ => rfl

theorem settle_hush {who : OsThread} {l l' : Local} (h : a.call.Goes who l a.stage l' stage) :
    a.hush.settle t stage = a.settle t stage := by
  cases hg : a.stage.guards with
  | true =>
    have hs := Call.isRefused_of_guards_or_ok (h.guards_or_ok hg)
    rw [settle_of_not_isRefused _ t hs, settle_of_not_isRefused _ t hs]
  | false => rw [hush, hg, if_neg Bool.false_ne_true]

theorem next_hush {who : OsThread} {l l' : Local} (h : a.call.Goes who l a.stage l' stage) :
    (a.hush.next stage).map hush = (a.next stage).map hush := by
  cases hover : stage.isOver with
  | true => rw [next_of_isOver hover, next_of_isOver hover]
  | false =>
    rw [next_of_not_isOver hover, next_of_not_isOver hover]
    cases hg : a.stage.guards with
    | true =>
      have hs : stage.guards = true := (h.guards_or_ok hg).resolve_right fun hs => by
        rw [hs] at hover
        cases hover
      rw [List.map_singleton, List.map_singleton, hush_of_guards hs, hush_of_guards hs, hush_call]
    | false => rw [hush, hg, if_neg Bool.false_ne_true]

end Activity

namespace Machine
variable {m m' : Machine}

/-- A machine whose calls past their guards count nothing any more. -/
def hush (m : Machine) : Machine := { m with active := fun i => (m.active i).map Activity.hush }

theorem hush_ready (m : Machine) (i : Nat) : m.hush.ready i = m.ready i := by
  rw [ready, ready, hush, List.head?_map]
  rcases (m.active i).head? with _ | a
  · rfl
  · rw [Option.map_some, Option.all_some, Option.all_some, Activity.hush_stage]

theorem note_hush (m : Machine) (i : Nat) (c : Call) : (m.note i c).hush = m.hush.note i c := by
  have hempty : (m.hush.active i).isEmpty = (m.active i).isEmpty := List.isEmpty_map
  unfold note
  rw [hempty]
  split <;> rfl

theorem proceed_hush (m : Machine) (who : OsThread) (a : Activity) (rest : List Activity) :
    (m.proceed who a rest).hush = (m.hush.proceed who a.hush (rest.map Activity.hush)).hush := by
  have hgoes : a.call.Goes who ⟨m.tracer, m.memory who.id⟩ a.stage _ _ :=
    a.call.goes_advance _ a.stage
  simp only [proceed, Activity.hush_call, Activity.hush_stage, put, hush]
  rw [Activity.settle_hush hgoes]
  congr 1
  funext i
  simp only [Function.update_apply]
  split
  · rw [List.map_append, List.map_append, Activity.next_hush hgoes, Activity.map_hush_hush]
  · exact (Activity.map_hush_hush _).symm

theorem step_hush (m : Machine) (x : Move) : (m.step x).hush = (m.hush.step x).hush := by
  have hidem : m.hush.hush = m.hush := by
    simp only [hush, Activity.map_hush_hush]
  cases x with
  | call who c counted =>
    simp only [step, call, hush_ready]
    split
    · have hcalled : (⟨c, counted, .called⟩ : Activity).hush = ⟨c, counted, .called⟩ := rfl
      rw [proceed_hush, note_hush, hcalled]
      rfl
    · exact hidem.symm
  | advance who =>
    have hactive : m.hush.active who.id = (m.active who.id).map Activity.hush := rfl
    simp only [step, advance, hactive]
    rcases m.active who.id with _ | ⟨a, rest⟩
    · exact hidem.symm
    · exact proceed_hush ..
  | suspend =>
    have htracer : m.hush.tracer = m.tracer := rfl
    simp only [step, suspend, htracer]
    split <;> simp only [hush, Activity.map_hush_hush]
  | resume =>
    have htracer : m.hush.tracer = m.tracer := rfl
    simp only [step, resume, htracer]
    split <;> simp only [hush, Activity.map_hush_hush]
  | reset l =>
    have htracer : m.hush.tracer = m.tracer := rfl
    simp only [step, reset, htracer]
    split <;> simp only [hush, history, Activity.map_hush_hush]
  | elsewhere i r =>
    have htracer : m.hush.tracer = m.tracer := rfl
    simp only [step, htracer]
    split <;> simp only [hush, remember, Activity.map_hush_hush]
  | drain | notify | receive | exclude | look =>
    simp only [step, drain, exclude, remember, hush, history, Activity.map_hush_hush]

theorem run_hush (h : m.hush = m'.hush) (xs : List Move) : (m.run xs).hush = (m'.run xs).hush := by
  induction xs generalizing m m' with
  | nil => exact h
  | cons x xs ih => exact ih (by rw [step_hush, h, ← step_hush])

theorem outcome_hush (m : Machine) (x : Move) : m.outcome x = m.hush.outcome x := by
  cases x with
  | call who c counted =>
    simp only [outcome, hush_ready]
    rfl
  | advance who =>
    have hactive : m.hush.active who.id = (m.active who.id).map Activity.hush := rfl
    simp only [outcome, hactive]
    rcases m.active who.id with _ | ⟨a, rest⟩
    · rfl
    · simp only [List.map_cons, Activity.hush_call, Activity.hush_stage]
      rfl
  | _ => rfl

theorem outcomes_hush (h : m.hush = m'.hush) (xs : List Move) : m.outcomes xs = m'.outcomes xs := by
  induction xs generalizing m m' with
  | nil => rfl
  | cons x xs ih =>
    have hx : m.outcome x = m'.outcome x := by rw [outcome_hush, h, ← outcome_hush]
    have hstep : (m.step x).hush = (m'.step x).hush := by rw [step_hush, h, ← step_hush]
    rw [outcomes, outcomes, hx, ih hstep]

/-- A call that has not been refused counts nothing any more. -/
theorem comeTo_hush {c : Call} {i : Nat} {stage : Stage} {rest : List Activity} {x : Local × Stage}
    (h : x.2.isRefused = false) (hg : x.2.guards = true ∨ x.2.isOver = true) (counted : Bool) :
    (m.comeTo i ⟨c, counted, stage⟩ rest x).hush = (m.comeTo i ⟨c, false, stage⟩ rest x).hush := by
  have hnext : ((⟨c, counted, stage⟩ : Activity).next x.2).map Activity.hush =
      ((⟨c, false, stage⟩ : Activity).next x.2).map Activity.hush := by
    rcases hg with hg | hover
    · have hover : x.2.isOver = false := Stage.isOver_of_guards hg
      rw [Activity.next_of_not_isOver hover, Activity.next_of_not_isOver hover, List.map_singleton,
        List.map_singleton, Activity.hush_of_guards hg, Activity.hush_of_guards hg]
    · rw [Activity.next_of_isOver hover, Activity.next_of_isOver hover]
  simp only [comeTo, put, hush, Activity.settle_of_not_isRefused _ _ h]
  congr 1
  funext j
  simp only [Function.update_apply]
  split
  · rw [List.map_append, List.map_append, hnext]
  · rfl

/-- Nothing but the calls in progress tells the two apart. -/
theorem eq_of_hush (h : m.hush = m'.hush) : { m with active := m'.active } = m' :=
  (congrArg (fun n : Machine => { n with active := m'.active }) h :)

/-- A call that nothing interrupts, made with and without counting its refusal. -/
theorem run_call_counted {who : OsThread} (c : Call) (hr : m.ready who.id = true)
    (hk : m.tracer.roster.Knows who.id (m.memory who.id)) :
    let x := c.start who ⟨m.tracer, m.memory who.id⟩
    ∃ k, let moves := List.replicate k (.advance who)
      let tried := (m.step (.call who c false)).run moves
      let called := (m.step (.call who c true)).run moves
      tried = (m.note who.id c).put who.id x.1
        (Activity.next ⟨c, false, .called⟩ x.2 ++ m.active who.id) ∧
      (∀ e, x.2 = .returned (.error e) → tried = (m.note who.id c).remember who.id x.1.memory ∧
        called = { tried with tracer := m.tracer.countRefused e }) ∧
      ((∀ e, x.2 ≠ .returned (.error e)) → ∀ ys, called.outcomes ys = tried.outcomes ys ∧
        { called.run ys with active := (tried.run ys).active } = tried.run ys) := by
  intro x
  obtain ⟨k, hrun⟩ := run_start c hr
  refine ⟨k, ?_⟩
  intro moves tried called
  have hcalled : called = (m.note who.id c).comeTo who.id ⟨c, true, .called⟩ (m.active who.id) x :=
    hrun true
  have htried : tried = (m.note who.id c).comeTo who.id ⟨c, false, .called⟩ (m.active who.id) x :=
    hrun false
  have hput : tried = (m.note who.id c).put who.id x.1
      (Activity.next ⟨c, false, .called⟩ x.2 ++ m.active who.id) := by
    rw [htried, comeTo, Activity.settle_uncounted]
  refine ⟨hput, fun e hx => ?_, fun hx ys => ?_⟩
  · have htracer : x.1.tracer = m.tracer := Call.start_tracer_of_error hk hx
    have hstay (t : Tracer) : (m.note who.id c).put who.id ⟨t, x.1.memory⟩ (m.active who.id) =
        { (m.note who.id c).remember who.id x.1.memory with tracer := t } := by
      simp only [put, remember, note_active, Function.update_eq_self]
    have hmemory : tried = (m.note who.id c).remember who.id x.1.memory := by
      have hlocal : x.1 = ⟨(m.note who.id c).tracer, x.1.memory⟩ := by rw [note_tracer, ← htracer]
      rw [hput, hx, hlocal]
      exact hstay _
    refine ⟨hmemory, ?_⟩
    rw [hcalled, hmemory, comeTo, hx, htracer]
    exact hstay _
  · have hrefused : x.2.isRefused = false := by
      generalize x.2 = stage at hx
      rcases stage with _ | _ | _ | _ | _ | _ | _ | e | _ <;> first | rfl | exact absurd rfl (hx _)
    have hhush : called.hush = tried.hush := by
      rw [hcalled, htried]
      exact comeTo_hush hrefused (c.start_guards_or_isOver who _) true
    exact ⟨outcomes_hush hhush ys, eq_of_hush (run_hush hhush ys)⟩

/-! ### Control operations -/

theorem step_suspend_of_error {e : ControlError} (h : m.tracer.suspend = .error e) :
    e = .alreadySuspended ∧ m.tracer.suspension.suspended = true ∧ m.step .suspend = m := by
  refine ⟨?_, ?_, by rw [step, suspend, h]⟩ <;> rw [Tracer.suspend_eq] at h <;> split at h
  · cases h
    rfl
  · cases h
  · assumption
  · cases h

theorem step_resume_of_error {e : ControlError} (h : m.tracer.resume = .error e) :
    e = .notSuspended ∧ m.tracer.suspension.suspended = false ∧ m.step .resume = m := by
  refine ⟨?_, ?_, by rw [step, resume, h]⟩ <;> rw [Tracer.resume_eq] at h <;> split at h
  · cases h
  · cases h
    rfl
  · cases h
  · rename_i hs
    rwa [Bool.not_eq_true] at hs

theorem step_reset_of_error {l : Settings.Limits} {e : ControlError}
    (h : m.tracer.reset l = .error e) :
    e = .notSuspended ∧ m.tracer.suspension.suspended = false ∧ m.step (.reset l) = m := by
  refine ⟨?_, Tracer.reset_eq_error h, by rw [step, reset, h]⟩
  unfold Tracer.reset at h
  split at h
  · cases h
  · cases h
    rfl

end Machine

/-- In any state that a tracer can get into, a thread may call a hook, also while it tells a first
invocation. If nothing comes between the steps of the call and it is refused, nothing has changed but
what the thread remembers, and the reason is the first of these three that there is: tracing is
suspended; an entry finds its thread denied, or not registered and kept out or without room; the guard
is held of a stack that the call concerns. A call that counts its refusal adds one to the counter of
the reason, leaves all other counters, and is otherwise the same; if it is not refused, the two can
never be told apart. A call
that others come between changes nothing either before it has its guard, unless it registers its
thread: it may do so and be refused later, if tracing is suspended in between. Suspending, resuming
and resetting change nothing when they are refused. -/
theorem refusals_leave_no_trace (id : Nat) (s : Settings) (hasHandler : Bool) (xs : List Move)
    (who : OsThread) (c : Call)
    (hr : ((Machine.new (.new id s hasHandler)).run xs).ready who.id = true) :
    let m := (Machine.new (.new id s hasHandler)).run xs
    let standing := (m.tracer.roster.consult who.id (m.memory who.id)).1
    let x := c.start who ⟨m.tracer, m.memory who.id⟩
    (∀ e, x.2 = .returned (.error e) → x.1.tracer = m.tracer) ∧
    (x.2 = .returned (.error .suspended) ↔ m.tracer.suspension.suspended = true) ∧
    (x.2 = .returned (.error .admissionDenied) ↔ m.tracer.suspension.suspended = false ∧
      c.hook.enrolls = true ∧ (standing = .denied ∨ standing = .unregistered ∧
        (m.tracer.quota.remaining = 0 ∨ who.id ∈ m.tracer.roster.excluded))) ∧
    (x.2 = .returned (.error .guarded) ↔ m.tracer.suspension.suspended = false ∧
      ∃ slot stack, standing = .registered slot ∧ m.tracer.roster.stack? slot = some stack ∧
        c.hook.concerns stack = true ∧ stack.guarded = true) ∧
    (∀ e, x.2 ≠ .returned (.error (.queue e))) ∧
    (∃ k, let moves := List.replicate k (.advance who)
      let tried := (m.step (.call who c false)).run moves
      let called := (m.step (.call who c true)).run moves
      tried = (m.note who.id c).put who.id x.1
        (Activity.next ⟨c, false, .called⟩ x.2 ++ m.active who.id) ∧
      (∀ e, x.2 = .returned (.error e) → tried = (m.note who.id c).remember who.id x.1.memory ∧
        let one (reason : HookError) : UInt64 := if e = reason then 1 else 0
        let tally := m.tracer.tally
        called = { tried with
          tracer := { m.tracer with
            tally := { tally with
              suspended := tally.suspended + one .suspended
              denied := tally.denied + one .admissionDenied
              guarded := tally.guarded + one .guarded } } }) ∧
      ((∀ e, x.2 ≠ .returned (.error e)) → ∀ ys, called.outcomes ys = tried.outcomes ys ∧
        { called.run ys with active := (tried.run ys).active } = tried.run ys)) ∧
    (∀ (other : OsThread) (a : Activity) (rest : List Activity), m.active other.id = a :: rest →
      let y := a.call.advance other ⟨m.tracer, m.memory other.id⟩ a.stage
      a.stage.guards = false → y.2.guards = false →
        y.1.tracer = m.tracer ∨ ∃ epoch slot, y.2 = .enrolled epoch slot true) ∧
    (∀ e, m.tracer.suspend = .error e →
      e = .alreadySuspended ∧ m.tracer.suspension.suspended = true ∧ m.step .suspend = m) ∧
    (∀ e, m.tracer.resume = .error e →
      e = .notSuspended ∧ m.tracer.suspension.suspended = false ∧ m.step .resume = m) ∧
    (∀ l e, m.tracer.reset l = .error e →
      e = .notSuspended ∧ m.tracer.suspension.suspended = false ∧ m.step (.reset l) = m) := by
  intro m standing x
  have hk : m.tracer.roster.Knows who.id (m.memory who.id) :=
    Machine.knows_run (fun _ _ hc => by cases hc) xs who.id
  refine ⟨fun e => Call.start_tracer_of_error hk, ?_, ?_, ?_, fun e hx => ?_, ?_, ?_, ?_, ?_, ?_⟩
  · rw [Call.start_eq_error_iff hk, Call.refusal_eq_suspended_iff]
  · rw [Call.start_eq_error_iff hk, Call.refusal_eq_admissionDenied_iff]
  · rw [Call.start_eq_error_iff hk, Call.refusal_eq_guarded_iff]
  · exact Call.refusal_ne_queue e ((Call.start_eq_error_iff hk _).mp hx)
  · obtain ⟨k, hput, hrefused, hgranted⟩ := Machine.run_call_counted c hr hk
    refine ⟨k, hput, fun e hx => ?_, hgranted⟩
    have hqueue (q : QueueError) : e ≠ .queue q := by
      rintro rfl
      exact Call.refusal_ne_queue q ((Call.start_eq_error_iff hk _).mp hx)
    obtain ⟨hmemory, hcounted⟩ := hrefused e hx
    rw [Tracer.countRefused, Tally.countRefused_eq hqueue] at hcounted
    exact ⟨hmemory, hcounted⟩
  · intro other a rest _ y
    exact (a.call.goes_advance _ _).tracer_of_not_guards
  · exact fun e => Machine.step_suspend_of_error
  · exact fun e => Machine.step_resume_of_error
  · exact fun l e => Machine.step_reset_of_error

/-- A thread enters a marker while it is telling the first invocation of a root's method. -/
theorem refusals_leave_no_trace_within_telling :
    let first : OsThread := ⟨0, none⟩
    let c : Call := ⟨.markerEntry, ⟨2⟩, none⟩
    let xs : List Move :=
      .call first ⟨.rootEntry, ⟨1⟩, none⟩ true :: List.replicate 4 (.advance first)
    let m := (Machine.new (.new 0 .default true)).run xs
    let x := c.start first ⟨m.tracer, m.memory 0⟩
    m.ready 0 = true ∧ m.active 0 ≠ [] ∧ x.2 = .returned (.error .guarded) ∧
      x.1.tracer = m.tracer ∧ ∃ k,
        ((m.step (.call first c true)).run (List.replicate k (.advance first))).tracer =
          { m.tracer with tally := { m.tracer.tally with guarded := m.tracer.tally.guarded + 1 } } := by
  intro first c xs
  have hready : ((Machine.new (.new 0 .default true)).run xs).ready 0 = true := by decide +kernel
  have hactive : (((Machine.new (.new 0 .default true)).run xs).active 0).isEmpty = false := by
    decide +kernel
  have hrunning : ((Machine.new (.new 0 .default true)).run xs).tracer.suspension.suspended =
      false := by decide +kernel
  have hstanding : (((Machine.new (.new 0 .default true)).run xs).tracer.roster.consult 0
      (((Machine.new (.new 0 .default true)).run xs).memory 0)).1 = .registered 0 := by
    decide +kernel
  have hstack : ((Machine.new (.new 0 .default true)).run xs).tracer.roster.stack? 0 =
      some ⟨⟨1⟩, none, true, 0, 0, 1⟩ := by decide +kernel
  obtain ⟨htracer, -, -, hguarded, -, ⟨k, -, hcounted, -⟩, -⟩ :=
    refusals_leave_no_trace 0 .default true xs first c hready
  generalize (Machine.new (.new 0 .default true)).run xs = m at *
  intro _ x
  have hx : x.2 = .returned (.error .guarded) :=
    hguarded.mpr ⟨hrunning, 0, _, hstanding, hstack, rfl, rfl⟩
  refine ⟨hready, ?_, hx, htracer _ hx, k, ?_⟩
  · intro hnil
    rw [hnil] at hactive
    cases hactive
  · simpa using congrArg Machine.tracer (hcounted _ hx).2

end MethodTrace
