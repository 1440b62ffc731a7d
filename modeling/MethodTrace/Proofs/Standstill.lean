import MethodTrace.Proofs.FreshStart
import MethodTrace.Proofs.Guards
import MethodTrace.Proofs.Room
import MethodTrace.Proofs.Undivided

/-!
# Threads that stand still

The guard of a thread with no call in progress is held by the suspension in force alone, which holds no
slot twice (`Reckoned`). A thread whose call is divided may be registered behind a suspension that has
started since, and is not held. Where calls are not divided, nobody is on the way to a slot when
tracing is suspended (`Prompt`), and a suspension holds all who are registered.
-/

namespace MethodTrace

theorem Move.mover?_of_goesOn {x : Move} {i : Nat} (h : x.goesOn i = true) : x.mover? = some i := by
  cases x with
  | advance who => exact congrArg some (beq_iff_eq.mp h)
  | _ => cases h

theorem Activity.mem_tail_next {a b : Activity} {stage : Stage} {rest : List Activity}
    (h : b ∈ (a.next stage ++ rest).tail) : b ∈ rest := by
  cases hover : stage.isOver with
  | true =>
    rw [next_of_isOver hover] at h
    exact List.mem_of_mem_tail h
  | false => rwa [next_of_not_isOver hover] at h

/-- No call looks for its slot that has begun while tracing was suspended. -/
theorem Call.Goes.not_suspended_of_running {c : Call} {who : OsThread} {l l' : Local} {stage : Stage}
    {e : UInt64} (h : c.Goes who l stage l' (.running e)) :
    l.tracer.suspension.suspended = false := by
  generalize hs : Stage.running e = stage' at h
  cases h with
  | start h => exact (Suspension.openEpoch_eq_some_iff.mp h).1
  | @act t _ epoch slot fresh =>
    rcases act_stage (c := c) t epoch slot fresh with heq | ⟨o, heq⟩ <;> rw [heq] at hs <;> cases hs
  | _ => cases hs

namespace Machine
variable {m : Machine} {x : Move} {xs : List Move} {i : Nat} {s : Slot} {c : CallStack}

theorem step_suspend_of_suspended (hs : m.tracer.suspension.suspended = true) :
    m.step .suspend = m := by
  rcases m.suspend_cases with heq | ⟨hs', -⟩
  · exact heq
  · rw [hs] at hs'
    cases hs'

theorem step_resume_of_running (hs : m.tracer.suspension.suspended = false) :
    m.step .resume = m := by
  rcases m.resume_cases with heq | ⟨hs', -⟩
  · exact heq
  · rw [hs] at hs'
    cases hs'

theorem step_suspend_of_running (hs : m.tracer.suspension.suspended = false) :
    m.step .suspend = { m with
      tracer := { m.tracer with
        suspension := ⟨true, m.tracer.suspension.epoch + 1, m.tracer.roster.slots⟩
        roster := Suspension.bumpAll m.tracer.roster m.tracer.roster.slots
        queue := m.tracer.queue.close (m.tracer.suspension.epoch + 1)
          (m.tracer.marker .threadsSuspended)
        clock := m.tracer.clock.next }
      suspensions := m.suspensions + 1 } := by
  simp only [step, suspend, Tracer.suspend, Suspension.suspend, hs, Bool.false_eq_true, ↓reduceIte]
  rfl

theorem step_resume_of_suspended (hs : m.tracer.suspension.suspended = true) :
    m.step .resume = { m with
      tracer := { m.tracer with
        suspension := ⟨false, m.tracer.suspension.epoch, []⟩
        roster := Suspension.releaseAll m.tracer.roster m.tracer.suspension.held
        queue := m.tracer.queue.reopen (m.tracer.marker .threadsResumed)
        clock := m.tracer.clock.next } } := by
  simp only [step, resume, Tracer.resume, Suspension.resume, hs, ↓reduceIte]
  rfl

/-! ### Whom a suspension holds -/

/-- What is known of the guards, whatever has happened. -/
structure Reckoned (st : Settings) (hasHandler : Bool) (m : Machine) : Prop where
  made : m.Made st hasHandler
  accounted : m.Accounted

namespace Reckoned
variable {st : Settings} {hasHandler : Bool}

theorem new (id : Nat) (st : Settings) (hasHandler : Bool) :
    (Machine.new (.new id st hasHandler)).Reckoned st hasHandler :=
  ⟨.new id st hasHandler, .new id st hasHandler⟩

theorem step (h : m.Reckoned st hasHandler) (x : Move) : (m.step x).Reckoned st hasHandler := by
  obtain ⟨limit, hseated⟩ := h.made.seated
  exact ⟨h.made.step x, h.accounted.step hseated x⟩

theorem run (h : m.Reckoned st hasHandler) (xs : List Move) :
    (m.run xs).Reckoned st hasHandler := by
  induction xs generalizing m with
  | nil => exact h
  | cons x xs ih => exact ih (h.step x)

/-- A suspension in force holds the slots that were taken when it began. -/
theorem held_step (h : m.Reckoned st hasHandler) (x : Move)
    (hs : (m.step x).tracer.suspension.suspended = true) : (m.step x).tracer.suspension.held =
      if m.tracer.suspension.suspended then m.tracer.suspension.held else m.tracer.roster.slots := by
  have hflow := h.made.steady.flow x
  generalize m.step x = m', m.news x = news at hs hflow ⊢
  cases hflow with
  | quiet _ hw | advance _ hw =>
    rw [hw.suspension] at hs ⊢
    rw [if_pos hs]
  | suspend hopen => rw [hopen, if_neg Bool.false_ne_true]
  | resume => cases hs
  | reset hs => rw [if_pos hs]
  | drain => exact (if_pos hs).symm

/-- The guard of a stack that no call in progress has to do with, be it one that a reset has left
behind. -/
theorem guard (h : m.Reckoned st hasHandler) (hc : m.tracer.roster.stack? s = some c)
    (hfree : ∀ i, ∀ a ∈ m.active i, a.stage.slot? ≠ some s) :
    c.guard = if s ∈ m.tracer.suspension.held then 1 else 0 := by
  obtain ⟨i, -, hguard⟩ := h.accounted.guard s c hc
  rw [← Int32.toInt_inj, hguard, weightAt_eq_zero (hfree i), h.accounted.held.count]
  split <;> rfl

/-- Nobody else has to do with the stack of a thread. -/
theorem free_of_idle (h : m.Reckoned st hasHandler) (hslot : m.tracer.roster.slot? i = some s)
    (hc : m.tracer.roster.stack? s = some c) (hidle : m.active i = []) :
    ∀ j, ∀ a ∈ m.active j, a.stage.slot? ≠ some s := by
  intro j a ha hs
  obtain ⟨k, hk, -⟩ := h.accounted.guard s c hc
  obtain rfl : i = k := hk i (.inl (.inl hslot))
  obtain rfl : j = i := hk j (.inr ⟨a, ha, hs⟩)
  rw [hidle] at ha
  cases ha

end Reckoned

/-! ### Calls that are not divided -/

/-- A call looks for its slot that did so before, or that has begun to while tracing was not
suspended. -/
theorem Calls.of_running {m' : Machine} (h : m.Calls x m') {a : Activity} (ha : a ∈ m'.active i)
    {e : UInt64} (he : a.stage = .running e) :
    a ∈ m.active i ∨ m.tracer.suspension.suspended = false := by
  have hnext {b : Activity} {who : OsThread} {l l' : Local} {stage stage' : Stage}
      (hgoes : b.call.Goes who l stage l' stage') (ha : a ∈ b.next stage') :
      l.tracer.suspension.suspended = false := by
    rw [(Activity.eq_of_mem_next ha).1] at he
    cases he
    exact hgoes.not_suspended_of_running
  cases h with
  | same heq => exact .inl (heq ▸ ha)
  | @call who c counted l stage _ hgoes hactive =>
    rw [hactive, Function.update_apply] at ha
    split at ha
    · rename_i hi
      rw [hi]
      exact (List.mem_append.mp ha).symm.imp_right (hnext (b := ⟨c, counted, .called⟩) hgoes)
    · exact .inl ha
  | @advance who b rest _ _ _ hact hgoes hactive =>
    rw [hactive, Function.update_apply] at ha
    split at ha
    · rename_i hi
      rw [hi, hact]
      exact (List.mem_append.mp ha).symm.imp (List.mem_cons_of_mem b) (hnext hgoes)
    · exact .inl ha

/-- All calls in progress are paused but the one that goes on with the next move, and no call looks
for its slot while tracing is suspended. -/
structure Prompt (m : Machine) (xs : List Move) : Prop where
  paused : ∀ i, xs.head?.any (Move.goesOn i) = false → ∀ a ∈ m.active i, a.stage.paused = true
  outer : ∀ i, ∀ a ∈ (m.active i).tail, a.stage.paused = true
  asking : ∀ i, ∀ a ∈ m.active i, ∀ e, a.stage = .running e → m.tracer.suspension.suspended = false
  held : m.tracer.suspension.suspended = true →
    ∀ s ∈ m.tracer.roster.slots, s ∈ m.tracer.suspension.held

namespace Prompt

theorem new (id : Nat) (st : Settings) (hasHandler : Bool) (xs : List Move) :
    (Machine.new (.new id st hasHandler)).Prompt xs where
  paused _ _ := List.forall_mem_nil _
  outer _ := List.forall_mem_nil _
  asking _ := List.forall_mem_nil _
  held hs := by cases hs

theorem outer_step (h : m.Prompt (x :: xs)) (i : Nat) :
    ∀ a ∈ ((m.step x).active i).tail, a.stage.paused = true := by
  have hcalls := m.calls_step x
  generalize m.step x = m' at hcalls
  cases hcalls with
  | same heq =>
    rw [heq]
    exact h.outer i
  | @call who _ _ _ _ _ _ hactive =>
    rw [hactive]
    by_cases hi : i = who.id
    · rw [hi, Function.update_self]
      exact fun a ha => h.paused who.id rfl a (Activity.mem_tail_next ha)
    · rw [Function.update_of_ne hi]
      exact h.outer i
  | @advance who _ _ _ _ _ hact _ hactive =>
    rw [hactive]
    by_cases hi : i = who.id
    · have houter := h.outer who.id
      rw [hact, List.tail_cons] at houter
      rw [hi, Function.update_self]
      exact fun a ha => houter a (Activity.mem_tail_next ha)
    · rw [Function.update_of_ne hi]
      exact h.outer i

theorem paused_step (h : m.Prompt (x :: xs)) (hundivided : m.undivided (x :: xs) = true) (i : Nat)
    (hi : xs.head?.any (Move.goesOn i) = false) :
    ∀ a ∈ (m.step x).active i, a.stage.paused = true := by
  rw [undivided, Bool.and_eq_true] at hundivided
  by_cases hx : x.mover? = some i
  · have hready : (m.step x).ready i = true := by
      have hmover := hundivided.1
      rwa [hx, Option.all_some, hi, Bool.or_false] at hmover
    have houter := h.outer_step i
    rcases hact : (m.step x).active i with _ | ⟨a, rest⟩
    · exact List.forall_mem_nil _
    · rw [ready, hact] at hready
      rw [hact] at houter
      exact List.forall_mem_cons.mpr ⟨hready, houter⟩
  · rw [m.active_step_of_ne hx]
    refine h.paused i ?_
    rw [List.head?_cons, Option.any_some, Bool.eq_false_iff]
    exact mt Move.mover?_of_goesOn hx

theorem asking_step (h : m.Prompt (x :: xs)) (hsteady : m.Steady) (i : Nat) (a : Activity)
    (ha : a ∈ (m.step x).active i) (e : UInt64) (he : a.stage = .running e) :
    (m.step x).tracer.suspension.suspended = false := by
  have hbefore : m.tracer.suspension.suspended = false :=
    ((m.calls_step x).of_running ha he).elim (fun ha => h.asking i a ha e he) id
  have hflow := hsteady.flow x
  generalize m.step x = m', m.news x = news at ha hflow
  cases hflow with
  | quiet _ hw | advance _ hw => rwa [hw.suspension]
  | suspend =>
    -- calls in progress are paused when tracing is suspended
    have hp := h.paused i rfl a ha
    rw [he] at hp
    cases hp
  | resume => rfl
  | reset | drain => exact hbefore

theorem held_step (h : m.Prompt (x :: xs)) (hsteady : m.Steady)
    (hs : (m.step x).tracer.suspension.suspended = true) :
    ∀ s ∈ (m.step x).tracer.roster.slots, s ∈ (m.step x).tracer.suspension.held := by
  have hseats := m.seats_step x
  have hflow := hsteady.flow x
  generalize m.step x = m', m.news x = news at hs hseats hflow ⊢
  have hsame (hsuspension : m'.tracer.suspension = m.tracer.suspension) :
      ∀ s ∈ m'.tracer.roster.slots, s ∈ m'.tracer.suspension.held := by
    rw [hsuspension] at hs ⊢
    cases hseats with
    | same _ hr _ =>
      rw [Roster.slots, hr.members]
      exact h.held hs
    | enlist hact hstage =>
      -- a call that registers its thread has begun before the suspension
      have := h.asking _ _ (hact ▸ List.mem_cons_self) _ hstage
      rw [hs] at this
      cases this
    | clear _ hr _ =>
      rw [hr]
      exact List.forall_mem_nil _
  cases hflow with
  | quiet _ hw | advance _ hw => exact hsame hw.suspension
  | suspend =>
    intro s hs
    cases hseats with
    | same _ hr _ => rwa [Roster.slots, hr.members] at hs
  | resume => cases hs
  | reset | drain => exact hsame rfl

theorem step (h : m.Prompt (x :: xs)) (hsteady : m.Steady)
    (hundivided : m.undivided (x :: xs) = true) : (m.step x).Prompt xs :=
  ⟨h.paused_step hundivided, h.outer_step, h.asking_step hsteady, h.held_step hsteady⟩

theorem run (h : m.Prompt xs) (hsteady : m.Steady) (hundivided : m.undivided xs = true) :
    (m.run xs).Prompt [] := by
  induction xs generalizing m with
  | nil => exact h
  | cons x xs ih =>
    have hrest : (m.step x).undivided xs = true := by
      rw [undivided, Bool.and_eq_true] at hundivided
      exact hundivided.2
    exact ih (h.step hsteady hundivided) (hsteady.step x) hrest

end Prompt

end Machine

/-- Threads take and drop guards and are suspended and resumed in any order, also one that is listed
more than once: as long as the guard of a thread stays within the range of its counter, it never stops
adding up (`Barrier.Accounts`). Suspending or resuming a second time changes nothing and runs no
callback. In any run of a tracer, whatever is done while a first invocation is told and however the
telling ends: the guard of a stack that no call in progress has to do with is 1 while a suspension
holds it, and 0 otherwise, and a suspension holds those who were registered when it began. Who stands
still while tracing is not suspended has guard 0. Who is registered and stands still while tracing is
suspended has guard 1 if calls are not divided. -/
theorem guards_are_accounted_for {σ : Type} (r : Roster)
    (hr : ∀ s c, r.stack? s = some c → c.guard = 0) (x : σ) (moves : List (BarrierMove σ))
    (id : Nat) (st : Settings) (hasHandler : Bool) (xs : List Move) :
    let b := (Barrier.new r x).run moves
    let m := (Machine.new (.new id st hasHandler)).run xs
    ((∀ s c, (∀ n, ((Barrier.new r x).run (moves.take n)).Fits s) →
        b.roster.stack? s = some c → b.Accounts s c) ∧
      (b.suspension.suspended = true → ∀ slots after, b.step (.suspend slots after) = b) ∧
      (b.suspension.suspended = false →
        b.suspension.held = [] ∧ ∀ before, b.step (.resume before) = b)) ∧
    (∀ s c, m.tracer.roster.stack? s = some c →
      (∀ i, ∀ a ∈ m.active i, a.stage.slot? ≠ some s) →
      c.guard = if s ∈ m.tracer.suspension.held then 1 else 0) ∧
    (∀ i s, m.tracer.roster.slot? i = some s → m.active i = [] →
      ∃ c, m.tracer.roster.stack? s = some c ∧
        (c.guard = if s ∈ m.tracer.suspension.held then 1 else 0) ∧
        (m.tracer.suspension.suspended = false → c.guard = 0) ∧
        ((Machine.new (.new id st hasHandler)).undivided xs = true →
          m.tracer.suspension.suspended = true → c.guard = 1)) ∧
    (∀ x, (m.step x).tracer.suspension.suspended = true → (m.step x).tracer.suspension.held =
      if m.tracer.suspension.suspended then m.tracer.suspension.held
      else m.tracer.roster.slots) ∧
    (m.tracer.suspension.suspended = true → m.step .suspend = m) ∧
    (m.tracer.suspension.suspended = false → m.step .resume = m) := by
  intro b m
  have hfree : (Barrier.new r x).suspension.suspended = false →
      (Barrier.new r x).suspension.held = [] := fun _ => rfl
  have hm : m.Reckoned st hasHandler := (Machine.Reckoned.new id st hasHandler).run xs
  refine ⟨⟨fun s c hfits => ?_, Barrier.step_suspend_of_suspended, fun hs =>
    ⟨Barrier.held_run hfree moves hs, Barrier.step_resume_of_running hs⟩⟩, fun s c => hm.guard,
    fun i s hslot hidle => ?_, hm.held_step, Machine.step_suspend_of_suspended,
    Machine.step_resume_of_running⟩
  · exact ((Barrier.Balanced.new hr x s).run hfree moves hfits).accounts
  obtain ⟨limit, hseated⟩ := hm.made.seated
  obtain ⟨c, hc, -⟩ := hseated.stack?_of_mem (Roster.Seated.slot_mem hslot)
  have hguard := hm.guard hc (hm.free_of_idle hslot hc hidle)
  refine ⟨c, hc, hguard, fun hs => ?_, fun hundivided hs => ?_⟩
  · rw [hguard, hm.accounted.free hs, if_neg List.not_mem_nil]
  · have hprompt : m.Prompt [] :=
      (Machine.Prompt.new id st hasHandler xs).run (.new id st hasHandler) hundivided
    rw [hguard, if_pos (hprompt.held hs s (Roster.Seated.slot_mem hslot))]

/-- A guard is dropped during a suspension that lists its thread twice, and a tracer is suspended
after one of its threads has entered a marker. -/
theorem guards_are_accounted_for_two_threads :
    let first : OsThread := ⟨0, none⟩
    let r := ((Roster.new 0).enlist first).enlist ⟨1, none⟩
    let count : UInt64 → Nat → Nat := fun _ n => n + 1
    let moves : List (BarrierMove Nat) := [.enter 0, .suspend [0, 0, 1] count, .drop 0]
    let b := (Barrier.new r 0).run moves
    let xs : List Move := .call first ⟨.markerEntry, ⟨1⟩, none⟩ true ::
      List.replicate 6 (.advance first) ++ [.suspend]
    let m := (Machine.new (.new 0 .default false)).run xs
    (∀ s c, r.stack? s = some c → c.guard = 0) ∧
    (∀ n, ((Barrier.new r 0).run (moves.take n)).Fits 0) ∧
    (Machine.new (.new 0 .default false)).undivided xs = true ∧
    (∃ c, b.roster.stack? 0 = some c ∧ c.guard = 2 ∧ b.step (.enter 0) = b ∧
      (b.step (.resume id)).roster.stack? 0 = some { c with guard := 0 }) ∧
    b.step (.suspend [1] count) = b ∧ b.outside = 1 ∧
    (∃ c, m.tracer.roster.stack? 0 = some c ∧ c.guard = 1) ∧ m.step .suspend = m := by
  intro first r count moves b xs
  have hr : ∀ s c, r.stack? s = some c → c.guard = 0 := by
    intro s c hc
    have hall : ∀ d ∈ r.callStacks, d.guard = 0 := by decide
    exact hall c (Array.mem_of_getElem? hc)
  have hfits : ∀ n, ((Barrier.new r 0).run (moves.take n)).Fits 0 := by
    intro n
    rcases n with _ | _ | _ | n
    · decide +kernel
    · decide +kernel
    · decide +kernel
    · rw [List.take_of_length_le (Nat.le_add_left 3 n)]
      decide +kernel
  have hundivided : (Machine.new (.new 0 .default false)).undivided xs = true := by decide +kernel
  obtain ⟨⟨haccounts, hsuspend, -⟩, -, hidle, -, hrefused, -⟩ :=
    guards_are_accounted_for r hr 0 moves 0 .default false xs
  have hm : ((Machine.new (.new 0 .default false)).run xs).tracer.suspension.suspended = true := by
    decide +kernel
  have hslot : ((Machine.new (.new 0 .default false)).run xs).tracer.roster.slot? 0 = some 0 := by
    decide +kernel
  have hactive : ((Machine.new (.new 0 .default false)).run xs).active 0 = [] := by
    rw [← List.isEmpty_iff]
    decide +kernel
  have hb : b.roster.stack? 0 = some ⟨⟨1⟩, none, false, 0, 0, 2⟩ := by decide +kernel
  have hsuspended : b.suspension.suspended = true := by decide +kernel
  have houtside : b.outside = 1 := by decide +kernel
  have hzero : some { CallStack.new ⟨1⟩ none with
      guard := 2 - Int32.ofNat (b.suspension.held.count 0) } =
        some { CallStack.new ⟨1⟩ none with guard := 0 } := by decide +kernel
  generalize (Machine.new (.new 0 .default false)).run xs = m at hidle hrefused hm hslot hactive ⊢
  obtain ⟨c, hc, -, -, hone⟩ := hidle 0 0 hslot hactive
  have hfirst := haccounts 0 _ hfits hb
  exact ⟨hr, hfits, hundivided,
    ⟨_, hb, rfl, hfirst.refused (by decide), (hfirst.resumed hsuspended id).2.1.trans hzero⟩,
    hsuspend hsuspended _ _, houtside, ⟨c, hc, hone hundivided hm⟩, hrefused hm⟩

/-- A thread that is listed 2³¹ times has a guard below zero, and is granted one more although tracing
is suspended. And a thread whose first entry is on its way when tracing is suspended is registered all
the same: once it stands still, tracing is suspended, and its guard is 0. -/
theorem guard_of_a_thread_listed_too_often_or_too_late :
    let who : OsThread := ⟨0, none⟩
    let b := (Barrier.new ((Roster.new 0).enlist who) ()).run
      [.suspend (List.replicate 2147483648 0) fun _ x => x]
    let m := (Machine.new (.new 0 .default false)).run
      ([.call who ⟨.markerEntry, ⟨1⟩, none⟩ true, .suspend] ++ List.replicate 6 (.advance who))
    (∃ c, b.roster.stack? 0 = some c ∧ c.guard.toInt = -2147483648 ∧
      b.granted.count 0 + b.suspension.held.count 0 = 2147483648 ∧
      c.takeGuard.isSome = true ∧ b.step (.enter 0) ≠ b) ∧
    m.active 0 = [] ∧ m.tracer.suspension.suspended = true ∧
      m.tracer.roster.slot? 0 = some 0 ∧ ∃ c, m.tracer.roster.stack? 0 = some c ∧ c.guard = 0 := by
  have hcount : (List.replicate 2147483648 (0 : Slot)).count 0 = 2147483648 :=
    List.count_replicate_self
  -- the list is too long to be looked at
  generalize List.replicate 2147483648 (0 : Slot) = slots at hcount
  intro who b m
  have hb : b = (Barrier.new ((Roster.new 0).enlist who) ()).step (.suspend slots fun _ x => x) := rfl
  have hstack : b.roster.stack? 0 = some ⟨⟨1⟩, none, false, 0, 0, Int32.minValue⟩ := by
    have hnew : (Barrier.new ((Roster.new 0).enlist who) ()).roster.stack? 0 =
        some (.new ⟨1⟩ none) := rfl
    rw [hb, Barrier.step_suspend rfl, Suspension.stack?_bumpAll, hcount, hnew]
    rfl
  have hheld : b.granted.count 0 + b.suspension.held.count 0 = 2147483648 := by
    rw [hb, Barrier.step_suspend rfl]
    exact (Nat.zero_add _).trans hcount
  have hactive : m.active 0 = [] := by
    rw [← List.isEmpty_iff]
    decide +kernel
  refine ⟨⟨_, hstack, rfl, hheld, rfl, fun h => ?_⟩, hactive, by decide +kernel, by decide +kernel,
    ⟨⟨1⟩, none, true, 1, 0, 0⟩, by decide +kernel, rfl⟩
  have hgranted := congrArg (fun b => b.granted.length) h
  rw [Barrier.step_enter hstack rfl] at hgranted
  exact Nat.succ_ne_self _ hgranted

end MethodTrace
