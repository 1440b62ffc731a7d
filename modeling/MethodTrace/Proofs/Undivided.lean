import MethodTrace.Proofs.Admission
import MethodTrace.Proofs.Chronicle

/-!
# Calls that are not divided

In a run in which every call goes on without anything in between, up to its end or its pause, threads
are admitted in the order in which they have entered, and every registration is told at once
(`Admissions.Whole`). In between, a call still has to ask or to tell (`Owes`).
-/

namespace MethodTrace

namespace Move

/-- Whether the innermost call of a thread goes on. -/
def goesOn (i : Nat) : Move → Bool
  | advance who => who.id == i
  | _ => false

end Move

/-- Whether nothing comes between the steps of a call, up to its end or its pause. -/
def Machine.undivided : Machine → List Move → Bool
  | _, [] => true
  | m, x :: xs =>
    (x.mover?.all fun i => (m.step x).ready i || xs.head?.any (Move.goesOn i)) &&
      undivided (m.step x) xs

/-- Whether a call will not ask for admission, and has not registered its thread either without
having told so. -/
def Stage.isSettled : Stage → Bool
  | called | running _ => false
  | enrolled _ _ fresh | cleared _ _ fresh | guarding _ _ fresh => !fresh
  | _ => true

namespace Call
variable {c : Call} {who : OsThread} {l l' : Local} {stage stage' : Stage}

theorem told_of_isSettled (h : stage.isSettled = true) (t : Tracer) : c.told t stage = [] := by
  cases stage with
  | guarding epoch slot fresh =>
    have hfresh : fresh = false := by simpa [Stage.isSettled] using h
    rw [told, hfresh]
    cases t.roster.stack? slot <;> simp [announces]
  | _ => rfl

theorem Goes.isSettled (h : c.Goes who l stage l' stage') (hs : stage.isSettled = true) :
    stage'.isSettled = true := by
  cases h with
  | @act t memory epoch slot fresh =>
    rcases act_stage (c := c) t epoch slot fresh with heq | ⟨o, heq⟩ <;> rw [heq] <;> rfl
  | _ => first | exact hs | rfl

end Call

namespace Admissions
variable {a : Admissions} {c : Call} {i : Nat} {stage : Stage}

/-- What a call has registered its thread for and not told yet. -/
structure Debt (a : Admissions) (c : Call) (epoch : UInt64) (slot : Slot) : Prop where
  enrolls : c.hook.enrolls = true
  admits : a.machine.tracer.queue.keepsOut epoch = false
  entered : a.entered = a.asked
  told : ∃ s, a.machine.tracer.roster.stack? slot = some s ∧
    a.machine.tracer.roster.numbers = a.told ++ [s.no.val]

/-- What a call in progress still has to do: ask for admission, or tell that it has registered its
thread. -/
inductive Owes (a : Admissions) (i : Nat) (c : Call) : Stage → Prop where
  | ask {epoch : UInt64} (hq : a.machine.tracer.queue.keepsOut epoch = false)
    (hentered : a.entered =
      joined a.barred a.asked (if c.hook.enrolls then some i else none))
    (htold : a.told = a.machine.tracer.roster.numbers) : Owes a i c (.running epoch)
  | enrolled {epoch : UInt64} {slot : Slot} (h : a.Debt c epoch slot)
    (hg : ∀ s, a.machine.tracer.roster.stack? slot = some s → s.guarded = false) :
    Owes a i c (.enrolled epoch slot true)
  | cleared {epoch : UInt64} {slot : Slot} (h : a.Debt c epoch slot)
    (hg : ∀ s, a.machine.tracer.roster.stack? slot = some s → s.guarded = false) :
    Owes a i c (.cleared epoch slot true)
  | guarding {epoch : UInt64} {slot : Slot} (h : a.Debt c epoch slot) :
    Owes a i c (.guarding epoch slot true)
  | nothing {stage : Stage} (hs : stage.isSettled = true) (hentered : a.entered = a.asked)
    (htold : a.told = a.machine.tracer.roster.numbers) : Owes a i c stage

theorem Owes.of_paused (h : a.Owes i c stage) (hp : stage.paused = true) :
    a.entered = a.asked ∧ a.told = a.machine.tracer.roster.numbers := by
  cases h with
  | nothing _ hentered htold => exact ⟨hentered, htold⟩
  | _ => cases hp

section advance
variable {who : OsThread} {act : Activity} {rest : List Activity} {l : Local} {epoch : UInt64}

theorem step_asked (hact : a.machine.active who.id = act :: rest)
    (hs : ∀ epoch, act.stage ≠ .running epoch) : (a.step (.advance who)).asked = a.asked := by
  have happlicant : a.machine.applicant? (.advance who) = none := by
    rcases hi : a.machine.applicant? (.advance who) with _ | i
    · rfl
    · obtain ⟨who', act', rest', epoch, hx, rfl, hact', hstage, -⟩ := Machine.applicant?_eq_some hi
      cases hx
      rw [hact] at hact'
      cases hact'
      exact absurd hstage (hs epoch)
  show joined a.barred a.asked (a.machine.applicant? (.advance who)) = a.asked
  rw [happlicant]
  rfl

theorem step_asked_of_running (hact : a.machine.active who.id = act :: rest)
    (hs : act.stage = .running epoch) : (a.step (.advance who)).asked =
      joined a.barred a.asked (if act.call.hook.enrolls then some who.id else none) := by
  obtain ⟨c, counted, stage⟩ := act
  cases hs
  show joined a.barred a.asked (a.machine.applicant? (.advance who)) = _
  rw [Machine.applicant?, hact]

theorem step_told (hsteady : a.machine.Steady) (hact : a.machine.active who.id = act :: rest) :
    (a.step (.advance who)).told = a.told ++
      if a.machine.tracer.queue.admits act.stage.epoch? then act.call.told a.machine.tracer act.stage
      else [] := by
  obtain ⟨drops, hw⟩ := hsteady.advance_wrote hact
  rw [← hw.posts.announced]
  rfl

theorem step_told_eq_self (hsteady : a.machine.Steady)
    (hact : a.machine.active who.id = act :: rest)
    (ht : act.call.told a.machine.tracer act.stage = []) : (a.step (.advance who)).told = a.told := by
  rw [step_told hsteady hact, ht, ite_self, List.append_nil]

theorem step_keepsOut (hsteady : a.machine.Steady) (hact : a.machine.active who.id = act :: rest)
    (e : UInt64) : (a.step (.advance who)).machine.tracer.queue.keepsOut e =
      a.machine.tracer.queue.keepsOut e := by
  obtain ⟨drops, hw⟩ := hsteady.advance_wrote hact
  exact Queue.keepsOut_congr hw.posts.closedFrom

/-- A call that owes nothing. -/
theorem owes_of_isSettled (hsteady : a.machine.Steady)
    (hact : a.machine.active who.id = act :: rest)
    (hgoes : act.call.Goes who ⟨a.machine.tracer, a.machine.memory who.id⟩ act.stage l stage)
    (hroster : (a.machine.step (.advance who)).tracer.roster = l.tracer.roster)
    (hs : act.stage.isSettled = true) (hentered : a.entered = a.asked)
    (htold : a.told = a.machine.tracer.roster.numbers) :
    (a.step (.advance who)).Owes who.id act.call stage := by
  have hrunning : ∀ epoch, act.stage ≠ .running epoch := by
    rintro epoch heq
    rw [heq] at hs
    cases hs
  have hasked := step_asked hact hrunning
  have htold' := step_told_eq_self hsteady hact (Call.told_of_isSettled hs _)
  cases hgoes.seats with
  | enlist hstage => exact absurd hstage (hrunning _)
  | same hr _ =>
    refine .nothing (hgoes.isSettled hs) (hentered.trans hasked.symm) ?_
    show _ = (a.machine.step (.advance who)).tracer.roster.numbers
    rw [htold', htold, hroster, hr.numbers]

/-- A call that asks. -/
theorem owes_of_ask (ha : a.Admitted) (hsteady : a.machine.Steady)
    (hact : a.machine.active who.id = act :: rest) (hs : act.stage = .running epoch)
    (hgoes : act.call.Goes who ⟨a.machine.tracer, a.machine.memory who.id⟩ (.running epoch) l stage)
    (hroster : (a.machine.step (.advance who)).tracer.roster = l.tracer.roster)
    (hq : a.machine.tracer.queue.keepsOut epoch = false)
    (hentered : a.entered =
      joined a.barred a.asked (if act.call.hook.enrolls then some who.id else none))
    (htold : a.told = a.machine.tracer.roster.numbers) :
    (a.step (.advance who)).Owes who.id act.call stage := by
  have hasked : a.entered = (a.step (.advance who)).asked :=
    hentered.trans (step_asked_of_running hact hs).symm
  have htold' := step_told_eq_self hsteady hact (by rw [hs]; rfl)
  have hnothing : l.tracer.roster = a.machine.tracer.roster → stage.isSettled = true →
      (a.step (.advance who)).Owes who.id act.call stage := by
    intro hr hsettled
    refine .nothing hsettled hasked ?_
    show _ = (a.machine.step (.advance who)).tracer.roster.numbers
    rw [htold', htold, hroster, hr]
  cases hc : act.call.hook.enrolls with
  | false =>
    cases hgoes with
    | register _ hc' | refuse _ hc' => rw [hc] at hc'; cases hc'
    | _ => exact hnothing rfl rfl
  | true =>
    cases hgoes.answer hc (ha.mindful.minds who.id) with
    | found _ hr | denied hr _ => exact hnothing hr rfl
    | admitted hslot he hq' hr =>
      have hstack := Roster.stack?_enlist_size a.machine.tracer.roster who
      have hnumbers := ha.seated.numbers_enlist who
      rw [← hr, ← hroster] at hstack hnumbers
      refine .enrolled ⟨hc, (step_keepsOut hsteady hact epoch).trans hq, hasked, _, hstack, ?_⟩ ?_
      · rw [htold', htold]
        exact hnumbers
      · intro s hs'
        obtain rfl := Option.some.inj (hstack.symm.trans hs')
        rfl

/-- A call that has still to tell, and does nothing to the numbers. -/
theorem Debt.advance {slot : Slot} (h : a.Debt act.call epoch slot) (hsteady : a.machine.Steady)
    (hact : a.machine.active who.id = act :: rest)
    (hr : a.machine.tracer.roster.SameSeats (a.machine.step (.advance who)).tracer.roster)
    (hs : ∀ epoch, act.stage ≠ .running epoch)
    (ht : act.call.told a.machine.tracer act.stage = []) :
    (a.step (.advance who)).Debt act.call epoch slot where
  enrolls := h.enrolls
  admits := (step_keepsOut hsteady hact epoch).trans h.admits
  entered := h.entered.trans (step_asked hact hs).symm
  told := by
    obtain ⟨s, hstack, hno⟩ := h.told
    obtain ⟨s', hs', heq⟩ := hr.symm.stack? hstack
    refine ⟨s', hs', ?_⟩
    rw [step_told_eq_self hsteady hact ht, heq, ← hno]
    exact hr.numbers

/-- A call that has registered its thread and has the guard yet to take. -/
theorem owes_of_early {slot : Slot} (h : a.Debt act.call epoch slot) (hsteady : a.machine.Steady)
    (hact : a.machine.active who.id = act :: rest)
    (hgoes : act.call.Goes who ⟨a.machine.tracer, a.machine.memory who.id⟩ act.stage l stage)
    (hroster : (a.machine.step (.advance who)).tracer.roster = l.tracer.roster)
    (hs : act.stage = .enrolled epoch slot true ∨ act.stage = .cleared epoch slot true)
    (hg : ∀ s, a.machine.tracer.roster.stack? slot = some s → s.guarded = false) :
    (a.step (.advance who)).Owes who.id act.call stage := by
  obtain ⟨s, hstack, -⟩ := h.told
  have hdebt : a.machine.tracer.roster.SameSeats l.tracer.roster →
      (a.step (.advance who)).Debt act.call epoch slot := by
    intro hr
    rw [← hroster] at hr
    refine h.advance hsteady hact hr ?_ ?_
    · rcases hs with hs | hs <;> rw [hs] <;> exact fun _ => Stage.noConfusion
    · rcases hs with hs | hs <;> rw [hs] <;> rfl
  rcases hs with hs | hs <;> rw [hs] at hgoes
  · cases hgoes with
    | lost hnone => rw [hstack] at hnone; cases hnone
    | skip _ hc => rw [Hook.concerns_of_enrolls h.enrolls] at hc; cases hc
    | clear =>
      refine .cleared (hdebt (.refl _)) ?_
      show ∀ s, (a.machine.step (.advance who)).tracer.roster.stack? slot = some s → _
      rw [hroster]
      exact hg
  · cases hgoes with
    | guarded hheld =>
      have := hg s hstack
      rw [hheld s hstack] at this
      cases this
    | guard hs' _ =>
      refine .guarding (hdebt (Roster.SameSeats.modify fun c hc => ?_))
      rw [hs'] at hc
      cases hc
      rfl

/-- A call that tells. -/
theorem owes_of_guarding {slot : Slot} (h : a.Debt act.call epoch slot)
    (hsteady : a.machine.Steady) (hact : a.machine.active who.id = act :: rest)
    (hgoes : act.call.Goes who ⟨a.machine.tracer, a.machine.memory who.id⟩ act.stage l stage)
    (hroster : (a.machine.step (.advance who)).tracer.roster = l.tracer.roster)
    (hs : act.stage = .guarding epoch slot true) :
    (a.step (.advance who)).Owes who.id act.call stage := by
  obtain ⟨s, hstack, hno⟩ := h.told
  have htold := step_told hsteady hact
  have hasked := step_asked hact (by rw [hs]; exact fun _ => Stage.noConfusion)
  have hannounces : act.call.announces true s = [s.no.val] := by rw [Call.announces, h.enrolls]; rfl
  have hadmits : a.machine.tracer.queue.admits (some epoch) = true := by
    simp [Queue.admits, h.admits]
  rw [hs] at hgoes htold
  rw [Stage.epoch?, hadmits, if_pos rfl, Call.told, hstack, Option.map_some, Option.getD_some,
    hannounces, ← hno] at htold
  cases hgoes with
  | act =>
    refine .nothing ?_ (h.entered.trans hasked.symm) ?_
    · rcases Call.act_stage (c := act.call) a.machine.tracer epoch slot true with heq | ⟨o, heq⟩ <;>
        rw [heq] <;> rfl
    · show _ = (a.machine.step (.advance who)).tracer.roster.numbers
      rw [htold, hroster]
      exact (Call.act_touches.sameSeats.numbers).symm

/-- A call goes on: what it has owed it has done now, or owes it still. -/
theorem Owes.advance (ha : a.Admitted) (hsteady : a.machine.Steady)
    (hact : a.machine.active who.id = act :: rest)
    (hgoes : act.call.Goes who ⟨a.machine.tracer, a.machine.memory who.id⟩ act.stage l stage)
    (hroster : (a.machine.step (.advance who)).tracer.roster = l.tracer.roster)
    (h : a.Owes who.id act.call act.stage) :
    (a.step (.advance who)).Owes who.id act.call stage := by
  generalize hs : act.stage = st at h
  cases h with
  | ask hq hentered htold =>
    exact owes_of_ask ha hsteady hact hs (hs ▸ hgoes) hroster hq hentered htold
  | enrolled hd hg => exact owes_of_early hd hsteady hact hgoes hroster (.inl hs) hg
  | cleared hd hg => exact owes_of_early hd hsteady hact hgoes hroster (.inr hs) hg
  | guarding hd => exact owes_of_guarding hd hsteady hact hgoes hroster hs
  | nothing hsettled hentered htold =>
    exact owes_of_isSettled hsteady hact hgoes hroster (hs ▸ hsettled) hentered htold

end advance

/-- All calls in progress are paused and owe nothing. -/
structure Whole (a : Admissions) : Prop where
  paused : ∀ i, ∀ act ∈ a.machine.active i, act.stage.paused = true
  entered : a.entered = a.asked
  told : a.told = a.machine.tracer.roster.numbers

/-- One call is on its way, all others are paused. -/
structure Midway (a : Admissions) (i : Nat) : Prop where
  others : ∀ j, j ≠ i → ∀ act ∈ a.machine.active j, act.stage.paused = true
  own : ∃ act rest, a.machine.active i = act :: rest ∧ act.stage.paused = false ∧
    (∀ b ∈ rest, b.stage.paused = true) ∧ a.Owes i act.call act.stage

theorem Whole.new (id : Nat) (s : Settings) (hasHandler : Bool) :
    (Admissions.new (.new id s hasHandler)).Whole :=
  ⟨fun _ => List.forall_mem_nil _, rfl, rfl⟩

theorem Midway.not_ready (h : a.Midway i) : a.machine.ready i = false := by
  obtain ⟨act, rest, hact, hp, -, -⟩ := h.own
  rw [Machine.ready, hact]
  exact hp

/-- The innermost call of a thread has gone on while all others are paused. -/
theorem whole_or_midway {who : OsThread} (act : Activity) {rest : List Activity} {stage : Stage}
    (hactive : a.machine.active who.id = act.next stage ++ rest)
    (hothers : ∀ j, j ≠ who.id → ∀ b ∈ a.machine.active j, b.stage.paused = true)
    (hrest : ∀ b ∈ rest, b.stage.paused = true) (ho : a.Owes who.id act.call stage) :
    a.Whole ∨ a.Midway who.id := by
  cases hp : stage.paused with
  | false =>
    have hnext : act.next stage = [{ act with stage := stage }] := by
      cases stage <;> first | rfl | cases hp
    rw [hnext] at hactive
    exact .inr ⟨hothers, _, rest, hactive, hp, hrest, ho⟩
  | true =>
    obtain ⟨hentered, htold⟩ := ho.of_paused hp
    refine .inl ⟨fun j b hb => ?_, hentered, htold⟩
    by_cases hj : j = who.id
    · rw [hj, hactive] at hb
      rcases List.mem_append.mp hb with hb | hb
      · rw [(Activity.eq_of_mem_next hb).1]
        exact hp
      · exact hrest b hb
    · exact hothers j hj b hb

theorem advance_of_owes (ha : a.Admitted) (hsteady : a.machine.Steady) {who : OsThread}
    {act : Activity} {rest : List Activity} (hact : a.machine.active who.id = act :: rest)
    (hothers : ∀ j, j ≠ who.id → ∀ b ∈ a.machine.active j, b.stage.paused = true)
    (hrest : ∀ b ∈ rest, b.stage.paused = true) (ho : a.Owes who.id act.call act.stage) :
    (a.step (.advance who)).Whole ∨ (a.step (.advance who)).Midway who.id := by
  obtain ⟨l, stage, hgoes, heq⟩ := Machine.advance_goes hact
  have hactive : (a.step (.advance who)).machine.active =
      Function.update a.machine.active who.id (act.next stage ++ rest) := by
    show (a.machine.step (.advance who)).active = _
    rw [heq, Machine.put]
  refine whole_or_midway act (by rw [hactive, Function.update_self]) (fun j hj => ?_) hrest
    (ho.advance ha hsteady hact hgoes (by simp [heq, Machine.put]))
  rw [hactive, Function.update_of_ne hj]
  exact hothers j hj

theorem Midway.step (h : a.Midway i) (ha : a.Admitted) (hsteady : a.machine.Steady)
    {who : OsThread} (hi : who.id = i) :
    (a.step (.advance who)).Whole ∨ (a.step (.advance who)).Midway i := by
  subst hi
  obtain ⟨act, rest, hact, -, hrest, ho⟩ := h.own
  exact advance_of_owes ha hsteady hact h.others hrest ho

/-- A thread calls a hook. -/
theorem Whole.call (h : a.Whole) (hsteady : a.machine.Steady) (who : OsThread) (c : Call)
    (counted : Bool) : (a.step (.call who c counted)).Whole ∨
      (a.step (.call who c counted)).Midway who.id := by
  have hready : a.machine.ready who.id = true := by
    rw [Machine.ready, Option.all_eq_true]
    exact fun act hact => h.paused who.id act (List.mem_of_head? hact)
  obtain ⟨l, stage, hgoes, heq⟩ := Machine.call_goes c counted hready
  have htold : (a.step (.call who c counted)).told = a.told := by
    have hnews := Machine.news_eq _ (Machine.Steady.call_wrote a.machine who c counted).posts.records
    show a.told ++ announced (a.machine.news (.call who c counted)) = a.told
    rw [hnews, announced_nil, List.append_nil]
  have htracer : l.tracer = a.machine.tracer := by cases hgoes <;> rfl
  have hroster : (a.step (.call who c counted)).machine.tracer.roster = a.machine.tracer.roster := by
    show (a.machine.step (.call who c counted)).tracer.roster = _
    simp [heq, Machine.put, htracer]
  have hactive : (a.step (.call who c counted)).machine.active = Function.update a.machine.active
      who.id ((⟨c, counted, .called⟩ : Activity).next stage ++ a.machine.active who.id) := by
    show (a.machine.step (.call who c counted)).active = _
    rw [heq, Machine.put, Machine.note_active]
  have hentered : (a.step (.call who c counted)).entered =
    joined a.barred a.entered (a.machine.entrant? (.call who c counted)) := rfl
  rw [Machine.entrant?, hready, Bool.true_and] at hentered
  refine whole_or_midway ⟨c, counted, .called⟩ (by rw [hactive, Function.update_self])
    (fun j hj => ?_) (h.paused who.id) ?_
  · rw [hactive, Function.update_of_ne hj]
    exact h.paused j
  · cases hgoes with
    | suspended hopen =>
      rw [Suspension.openEpoch_eq_none_iff.mp hopen, Bool.not_true, Bool.and_false] at hentered
      refine .nothing rfl (hentered.trans h.entered) ?_
      rw [htold, hroster, h.told]
    | start hopen =>
      have hs := (Suspension.openEpoch_eq_some_iff.mp hopen).1
      rw [hs, Bool.not_false, Bool.and_true, h.entered] at hentered
      refine .ask ?_ hentered ?_
      · show (a.machine.step (.call who c counted)).tracer.queue.keepsOut _ = false
        simpa [heq, Machine.put, htracer] using hsteady.keepsOut hs _
      · rw [htold, hroster, h.told]

/-- A move of which no call knows. -/
theorem Whole.congr (h : a.Whole) {x : Move}
    (hactive : (a.machine.step x).active = a.machine.active)
    (hentrant : a.machine.entrant? x = none) (happlicant : a.machine.applicant? x = none)
    (hannounced : announced (a.machine.news x) = []) : (a.step x).Whole := by
  refine ⟨fun i => ?_, ?_, ?_⟩
  · show ∀ act ∈ (a.machine.step x).active i, _
    rw [hactive]
    exact h.paused i
  · simp only [Admissions.step, hentrant, happlicant, joined, h.entered]
  · have htold : (a.step x).told =
      if a.machine.resets x then [] else a.told ++ announced (a.machine.news x) := rfl
    rw [htold, hannounced, List.append_nil, h.told]
    have hseats := a.machine.seats_step x
    show _ = (a.machine.step x).tracer.roster.numbers
    generalize a.machine.step x = m' at hseats
    cases hseats with
    | same hx hr _ => rw [hx, if_neg Bool.false_ne_true, hr.numbers]
    | enlist hact hstage hc =>
      rw [Machine.applicant?_advance hact hstage hc] at happlicant
      cases happlicant
    | clear hs hr _ =>
      rw [Machine.resets, hs, if_pos rfl, hr]
      rfl

/-- What happens to all calls at once. -/
theorem Whole.control (h : a.Whole) (hsteady : a.machine.Steady) {x : Move}
    (hx : x.mover? = none) : (a.step x).Whole := by
  have hcalls := a.machine.calls_step x
  have hflow := hsteady.flow x
  refine h.congr ?_ ?_ ?_ ?_
  · generalize a.machine.step x = m' at hcalls
    cases hcalls with
    | same heq => exact heq
    | call | advance => cases hx
  · cases x <;> first | rfl | cases hx
  · cases x <;> first | rfl | cases hx
  · generalize a.machine.step x = m', a.machine.news x = news at hflow
    cases hflow with
    | advance => cases hx
    | _ => rfl

theorem Whole.step (h : a.Whole) (ha : a.Admitted) (hsteady : a.machine.Steady) (x : Move) :
    (a.step x).Whole ∨ ∃ i, x.mover? = some i ∧ (a.step x).Midway i := by
  cases x with
  | call who c counted => exact (h.call hsteady who c counted).imp_right fun h => ⟨_, rfl, h⟩
  | advance who =>
    rcases hact : a.machine.active who.id with _ | ⟨act, rest⟩
    · have heq : a.machine.step (.advance who) = a.machine := Machine.advance_of_idle hact
      refine .inl (h.congr (by rw [heq]) rfl (by rw [Machine.applicant?, hact]) ?_)
      rw [Machine.news_eq [] (by rw [heq, List.append_nil])]
      rfl
    · have hpaused := h.paused who.id
      rw [hact, List.forall_mem_cons] at hpaused
      have hsettled : act.stage.isSettled = true := by
        cases hs : act.stage <;> rw [hs] at hpaused <;> first | rfl | cases hpaused.1
      refine (advance_of_owes ha hsteady hact (fun j _ => h.paused j) hpaused.2
        (.nothing hsettled h.entered h.told)).imp_right fun h => ⟨_, rfl, h⟩
  | _ => exact .inl (h.control hsteady rfl)

/-- An undivided run. -/
theorem Whole.run {xs : List Move}
    (h : a.Whole ∨ ∃ i, a.Midway i ∧ xs.head?.any (Move.goesOn i) = true) (ha : a.Admitted)
    (hsteady : a.machine.Steady) (hn : (a.run xs).resets < UInt64.size)
    (hundivided : a.machine.undivided xs = true) : (a.run xs).Whole := by
  induction xs generalizing a with
  | nil =>
    rcases h with h | ⟨i, -, hi⟩
    · exact h
    · cases hi
  | cons x xs ih =>
    rw [Machine.undivided, Bool.and_eq_true] at hundivided
    obtain ⟨hmover, hundivided⟩ := hundivided
    have hn' := Nat.lt_of_le_of_lt (resets_le_run (a.step x) xs) hn
    refine ih ?_ (ha.step x hn') (hsteady.step x) hn hundivided
    have hstep : (a.step x).Whole ∨ ∃ i, x.mover? = some i ∧ (a.step x).Midway i := by
      rcases h with h | ⟨i, h, hi⟩
      · exact h.step ha hsteady x
      · cases x with
        | advance who =>
          have hi : who.id = i := by simpa [Move.goesOn] using hi
          exact (h.step ha hsteady hi).imp_right fun h => ⟨i, congrArg some hi, h⟩
        | _ => cases hi
    refine hstep.imp_right fun ⟨i, hi, h⟩ => ⟨i, h, ?_⟩
    rw [hi, Option.all_some, show (a.machine.step x).ready i = false from h.not_ready,
      Bool.false_or] at hmover
    exact hmover

end Admissions

/-- Whatever threads do, registered are as many as slots are taken, under the numbers from 1 on, and
only entries into roots and markers register anybody. As long as generations do not come back: the
first are registered who have asked for admission since the last reset and had not been excluded, in
their order, as many as there are slots. Until the next reset they keep their numbers, and who has
asked in vain stays refused. If calls are not divided, threads ask in the order in which they enter,
and every registration is told once, under its number. -/
theorem admission_is_first_come_first_served (id : Nat) (s : Settings) (hasHandler : Bool)
    (xs : List Move) :
    let a := (Admissions.new (.new id s hasHandler)).run xs
    let m := (Machine.new (.new id s hasHandler)).run xs
    (a.machine = m ∧
      m.tracer.roster.size + m.tracer.quota.remaining.toNat = a.slots.toNat ∧
      m.tracer.roster.names.map (·.1.val.toNat) = List.range' 1 m.tracer.roster.size) ∧
    (∀ x, m.resets x = false → m.applicant? x = none →
      (m.step x).tracer.roster.members = m.tracer.roster.members) ∧
    (a.resets < UInt64.size →
      (a.asked.Nodup ∧ m.tracer.roster.members.map Prod.fst = a.asked.take a.slots.toNat) ∧
      (∀ ys, (a.run ys).resets = a.resets →
        let m' := m.run ys
        (m.tracer.roster.members.map Prod.fst <+: m'.tracer.roster.members.map Prod.fst ∧
          ∀ k i, (m.tracer.roster.members.map Prod.fst)[k]? = some i →
            ∃ c, m'.tracer.roster.stackOf i = some c ∧ c.no.val.toNat = k + 1) ∧
        ∀ who : OsThread, who.id ∈ a.asked → m.tracer.roster.slot? who.id = none →
          m'.tracer.roster.slot? who.id = none ∧
          ∀ c : Call, c.hook.enrolls = true → m'.tracer.suspension.suspended = false →
            (c.run who ⟨m'.tracer, m'.memory who.id⟩).2 = .error .admissionDenied) ∧
      ((Machine.new (.new id s hasHandler)).undivided xs = true →
        a.entered = a.asked ∧ a.told = m.tracer.roster.numbers)) := by
  intro a m
  have hnew := Admissions.Admitted.new id s hasHandler
  have hm : a.machine = m := Admissions.run_machine _ xs
  have hseated := Admissions.Admitted.seated_run hnew.seated xs
  change a.machine.tracer.roster.Seated a.machine.tracer.quota a.slots at hseated
  rw [← hm]
  refine ⟨⟨rfl, hseated.room, ?_⟩, fun x hx => Machine.members_of_no_applicant hx, fun hn => ?_⟩
  · simpa [Roster.numbers, Function.comp_def] using hseated.numbers_toNat
  have ha : a.Admitted := hnew.run xs hn
  refine ⟨⟨ha.nodup, ha.members⟩, fun ys hys => ?_, fun hundivided => ?_⟩
  · have ha' : (a.run ys).Admitted := ha.run ys (hys ▸ hn)
    obtain ⟨hfirst, hrefused⟩ := ha.members_run ha' hys
    rw [← Admissions.run_machine]
    refine ⟨⟨hfirst, fun k i => ha.number_run ha' hys⟩, fun who hi hslot => ?_⟩
    obtain ⟨hi', hslot'⟩ := hrefused who.id hi hslot
    exact ⟨hslot', fun c hc hs => ha'.run_eq_admissionDenied hc hs hi' hslot'⟩
  · have hwhole : a.Whole := Admissions.Whole.run (.inl (.new id s hasHandler)) hnew
      (.new id s hasHandler) hn hundivided
    exact ⟨hwhole.entered, hwhole.told⟩

/-- Two threads enter a marker where there is one slot. -/
theorem admission_is_first_come_first_served_one_slot :
    let first : OsThread := ⟨0, none⟩
    let second : OsThread := ⟨1, none⟩
    let c : Call := ⟨.markerEntry, ⟨1⟩, none⟩
    let s : Settings := { Settings.default with threadSlots := 1 }
    let xs : List Move := .call first c true :: List.replicate 6 (.advance first) ++
      [.call second c true, .advance second]
    let a := (Admissions.new (.new 0 s false)).run xs
    let m := (Machine.new (.new 0 s false)).run xs
    a.resets < UInt64.size ∧ (Machine.new (.new 0 s false)).undivided xs = true ∧
    a.entered = [0, 1] ∧ m.tracer.roster.members.map Prod.fst = [0] ∧
    a.told = m.tracer.roster.numbers ∧
    (c.run second ⟨m.tracer, m.memory 1⟩).2 = .error .admissionDenied := by
  intro first second c s xs
  have hserved := admission_is_first_come_first_served 0 s false xs
  have hundivided : (Machine.new (.new 0 s false)).undivided xs = true := by decide +kernel
  have hresets : ((Admissions.new (.new 0 s false)).run xs).resets = 0 := by decide +kernel
  have hslots : ((Admissions.new (.new 0 s false)).run xs).slots.toNat = 1 := by decide +kernel
  have hasked : ((Admissions.new (.new 0 s false)).run xs).asked = [0, 1] := by decide +kernel
  have hslot : ((Machine.new (.new 0 s false)).run xs).tracer.roster.slot? 1 = none := by
    decide +kernel
  have hs : ((Machine.new (.new 0 s false)).run xs).tracer.suspension.suspended = false := by
    decide +kernel
  generalize (Admissions.new (.new 0 s false)).run xs = a at hserved hresets hslots hasked ⊢
  generalize (Machine.new (.new 0 s false)).run xs = m at hserved hslot hs ⊢
  have hresets : a.resets < UInt64.size := by rw [hresets]; decide
  obtain ⟨-, -, hserved⟩ := hserved
  obtain ⟨⟨-, hmembers⟩, hlater, htold⟩ := hserved hresets
  obtain ⟨hentered, htold⟩ := htold hundivided
  obtain ⟨-, hrefused⟩ := hlater [] rfl
  rw [hasked, hslots] at hmembers
  exact ⟨hresets, hundivided, hentered.trans hasked, hmembers, htold,
    (hrefused second (by rw [hasked]; decide) hslot).2 c rfl hs⟩

end MethodTrace
