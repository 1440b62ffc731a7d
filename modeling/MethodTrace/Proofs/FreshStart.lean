import Mathlib.Data.List.Forall2
import MethodTrace.Proofs.EchoCall

/-!
# Resetting is starting afresh

A tracer that is reset while no call is in progress is, for all that can be seen, a new one: with the
flags that it was made with, the limits of the reset, the threads excluded that it had excluded, and
suspended (`reset_is_fresh_start`). The two go on in step, whatever happens (`Machine.Abreast`).
-/

namespace MethodTrace

/-- The settings of a new tracer with other limits. -/
def Settings.withLimits (s : Settings) (l : Settings.Limits) : Settings :=
  { s with threadSlots := l.threadSlots, bufferCapacity := l.bufferCapacity, depthLimit := l.depthLimit }

structure Activity.Echoes (k : Nat) (a a' : Activity) : Prop where
  call : a.call = a'.call
  counted : a.counted = a'.counted
  stage : a.stage.Echoes k a'.stage

theorem Activity.Echoes.next {k : Nat} {a a' : Activity} {rest rest' : List Activity}
    (h : a.Echoes k a') (hrest : List.Forall₂ (Activity.Echoes k) rest rest') {st st' : Stage}
    (hs : st.Echoes k st') :
    List.Forall₂ (Activity.Echoes k) (a.next st ++ rest) (a'.next st' ++ rest') := by
  cases hs with
  | returned => exact hrest
  | called => exact .cons ⟨h.call, h.counted, .called⟩ hrest
  | running => exact .cons ⟨h.call, h.counted, .running ..⟩ hrest
  | enrolled => exact .cons ⟨h.call, h.counted, .enrolled ..⟩ hrest
  | cleared => exact .cons ⟨h.call, h.counted, .cleared ..⟩ hrest
  | guarding => exact .cons ⟨h.call, h.counted, .guarding ..⟩ hrest
  | expanding => exact .cons ⟨h.call, h.counted, .expanding ..⟩ hrest
  | closing => exact .cons ⟨h.call, h.counted, .closing ..⟩ hrest

namespace Machine
variable {k n n' : Nat} {d : Tally} {m m' : Machine}

/-! ### In step -/

structure Echoes (k : Nat) (d : Tally) (m m' : Machine) : Prop where
  tracer : m.tracer.Echoes k d m'.tracer
  active : ∀ i, List.Forall₂ (Activity.Echoes k) (m.active i) (m'.active i)
  suspensions : m'.suspensions ≤ m.suspensions

theorem InTime.keepsOut (h : m.InTime) {i : Nat} {a : Activity} (ha : a ∈ m.active i) {e : UInt64}
    (he : a.stage.epoch? = some e) : m.tracer.queue.keepsOut e = false :=
  h.coupled.keepsOut (h.precedes i a ha e he)

namespace Echoes

theorem ready (h : Echoes k d m m') (i : Nat) : m.ready i = m'.ready i := by
  have hactive := h.active i
  simp only [Machine.ready]
  generalize m.active i = calls, m'.active i = calls' at hactive
  cases hactive with
  | nil => rfl
  | @cons a a' _ _ ha _ =>
    have hstage := ha.stage
    simp only [List.head?_cons, Option.all_some]
    generalize a.stage = st, a'.stage = st' at hstage
    cases hstage <;> rfl

theorem resets (h : Echoes k d m m') (x : Move) : m.resets x = m'.resets x := by
  cases x with
  | reset => exact h.tracer.suspended
  | _ => rfl

theorem spared (h : Echoes k d m m') {x : Move} (hx : m.Spared x) : m'.Spared x := by
  intro i hi
  have hslot := hx i hi
  rw [h.tracer.roster.slot?] at hslot
  simpa using hslot

/-- A step of a call, whatever the threads remember. -/
theorem echoed (h : Echoes k d m m') (hm : m.Aware n) (hm' : m'.Aware n') (who : OsThread)
    (c : Call) {st st' : Stage} (hs : st.Echoes k st')
    (hk : ∀ e, st.epoch? = some e → m.tracer.queue.keepsOut e = false)
    (hk' : ∀ e, st'.epoch? = some e → m'.tracer.queue.keepsOut e = false) :
    let x := c.advance who ⟨m.tracer, m.memory who.id⟩ st
    let x' := c.advance who ⟨m'.tracer, m'.memory who.id⟩ st'
    Call.Echoed k d (x.1.tracer, x.2) (x'.1.tracer, x'.2) := by
  obtain ⟨htracer, hstage⟩ := c.advance_forget (hm.minds who.id) st
  obtain ⟨htracer', hstage'⟩ := c.advance_forget (hm'.minds who.id) st'
  dsimp only
  rw [htracer, hstage, htracer', hstage']
  exact Call.advance_echoes h.tracer who hs hk hk'

theorem proceed (h : Echoes k d m m') {who : OsThread} {a a' : Activity}
    {rest rest' : List Activity} (ha : a.Echoes k a')
    (hrest : List.Forall₂ (Activity.Echoes k) rest rest')
    (hecho : let x := a.call.advance who ⟨m.tracer, m.memory who.id⟩ a.stage
      let x' := a'.call.advance who ⟨m'.tracer, m'.memory who.id⟩ a'.stage
      Call.Echoed k d (x.1.tracer, x.2) (x'.1.tracer, x'.2)) :
    Echoes k d (m.proceed who a rest) (m'.proceed who a' rest') where
  tracer := hecho.tracer.settle ha.counted hecho.stage
  active i := by
    simp only [Machine.proceed, put, Function.update_apply]
    split
    · exact ha.next hrest hecho.stage
    · exact h.active i
  suspensions := h.suspensions

theorem note (h : Echoes k d m m') (i : Nat) (c : Call) : Echoes k d (m.note i c) (m'.note i c) where
  tracer := by simpa using h.tracer
  active := by simpa using h.active
  suspensions := by simpa using h.suspensions

theorem of_tracer (h : Echoes k d m m') {t t' : Tracer} (ht : t.Echoes k d t')
    {memory memory' : Nat → Memory} {past past' : List Record} :
    Echoes k d { m with tracer := t, memory := memory, past := past }
      { m' with tracer := t', memory := memory', past := past' } :=
  ⟨ht, h.active, h.suspensions⟩

/-- Both make the same move, and nobody sees a difference. -/
theorem step (h : Echoes k d m m') (hm : m.Aware n) (hm' : m'.Aware n') (ht : m.InTime)
    (ht' : m'.InTime) (x : Move) :
    Echoes k d (m.step x) (m'.step x) ∧ m.outcome x = m'.outcome x := by
  cases x with
  | call who c counted =>
    have hecho := h.echoed hm hm' who c .called (fun e he => by cases he) fun e he => by cases he
    simp only [Machine.step, Machine.call, outcome, ← h.ready]
    split
    · refine ⟨(h.note who.id c).proceed ⟨rfl, rfl, .called⟩ (h.active who.id) ?_,
        hecho.stage.outcome c⟩
      simpa using hecho
    · exact ⟨h, rfl⟩
  | advance who =>
    have hactive := h.active who.id
    have hkeeps := fun a => ht.keepsOut (i := who.id) (a := a)
    have hkeeps' := fun a => ht'.keepsOut (i := who.id) (a := a)
    simp only [Machine.step, Machine.advance, outcome]
    generalize m.active who.id = calls, m'.active who.id = calls' at hactive hkeeps hkeeps'
    cases hactive with
    | nil => exact ⟨h, rfl⟩
    | @cons a a' rest rest' ha hrest =>
      have hecho := h.echoed hm hm' who a.call ha.stage
        (fun e he => hkeeps a List.mem_cons_self he) fun e he => hkeeps' a' List.mem_cons_self he
      obtain ⟨c', counted', st'⟩ := a'
      obtain rfl : a.call = c' := ha.call
      exact ⟨h.proceed ha hrest hecho, hecho.stage.outcome a.call⟩
  | suspend =>
    have hboth := h.tracer.suspend
    refine ⟨?_, congrArg Outcome.control hboth.outcome⟩
    simp only [Machine.step, Machine.suspend]
    rcases hboth with ⟨e, he, he'⟩ | ⟨u, u', hu, hu', hecho⟩
    · rw [he, he']
      exact h
    · rw [hu, hu']
      exact ⟨hecho, h.active, Nat.succ_le_succ h.suspensions⟩
  | resume =>
    have hboth := h.tracer.resume
    refine ⟨?_, congrArg Outcome.control hboth.outcome⟩
    simp only [Machine.step, Machine.resume]
    rcases hboth with ⟨e, he, he'⟩ | ⟨u, u', hu, hu', hecho⟩
    · rw [he, he']
      exact h
    · rw [hu, hu']
      exact h.of_tracer hecho
  | reset l =>
    have hboth := h.tracer.reset l
    refine ⟨?_, congrArg Outcome.control hboth.outcome⟩
    simp only [Machine.step, Machine.reset]
    rcases hboth with ⟨e, he, he'⟩ | ⟨u, u', hu, hu', hecho⟩
    · rw [he, he']
      exact h
    · rw [hu, hu']
      exact h.of_tracer hecho
  | drain =>
    refine ⟨h.of_tracer h.tracer.drain, ?_⟩
    simp only [outcome, Tracer.written, h.tracer.queue.records, h.tracer.queue.dropped]
  | notify =>
    refine ⟨h.of_tracer h.tracer.notify, ?_⟩
    have hsize : m.tracer.queue.records.size = m'.tracer.queue.records.size := h.tracer.queue.size
    simp only [outcome, Array.isEmpty, hsize]
  | receive => exact ⟨h.of_tracer h.tracer.receive, rfl⟩
  | exclude i => exact ⟨h.of_tracer (h.tracer.exclude i), rfl⟩
  | look i =>
    refine ⟨h.of_tracer h.tracer, congrArg Outcome.stack ?_⟩
    rw [Tracer.look_eq_stackOf (hm.minds i), Tracer.look_eq_stackOf (hm'.minds i),
      h.tracer.roster.stackOf]
  | elsewhere i r =>
    refine ⟨?_, rfl⟩
    have hsame : ∀ m : Machine, (m.step (.elsewhere i r)).tracer = m.tracer ∧
        (m.step (.elsewhere i r)).active = m.active ∧
        (m.step (.elsewhere i r)).suspensions = m.suspensions := fun m => by
      simp only [Machine.step]
      split <;> exact ⟨rfl, rfl, rfl⟩
    obtain ⟨htracer, hactive, hsuspensions⟩ := hsame m
    obtain ⟨htracer', hactive', hsuspensions'⟩ := hsame m'
    refine ⟨?_, ?_, ?_⟩
    · rw [htracer, htracer']
      exact h.tracer
    · rw [hactive, hactive']
      exact h.active
    · rw [hsuspensions, hsuspensions']
      exact h.suspensions

theorem outlook (h : Echoes k d m m') (hm : m.Aware n) (hm' : m'.Aware n') :
    m.outlook d = m'.outlook .zero := by
  have hstacks : (fun i => (m.tracer.look i (m.memory i)).1) =
      fun i => (m'.tracer.look i (m'.memory i)).1 := by
    funext i
    rw [Tracer.look_eq_stackOf (hm.minds i), Tracer.look_eq_stackOf (hm'.minds i),
      h.tracer.roster.stackOf]
  simp only [Machine.outlook, Tracer.written, h.tracer.tally, Tally.since_zero, h.tracer.suspended,
    h.tracer.depthLimit, h.tracer.quota, h.tracer.roster.roster_size, h.tracer.roster.names,
    h.tracer.invoked, h.tracer.queue.records, h.tracer.queue.dropped, hstacks]

end Echoes

/-- Two machines that go on in step: whatever their threads remember is right, and no seal keeps any
of their calls out. -/
structure Abreast (k : Nat) (d : Tally) (n n' : Nat) (m m' : Machine) : Prop where
  echoes : Echoes k d m m'
  aware : m.Aware n
  aware' : m'.Aware n'
  inTime : m.InTime
  inTime' : m'.InTime
  resets : n' ≤ n

namespace Abreast

theorem step (h : Abreast k d n n' m m') {x : Move} (hx : m.Spared x)
    (hn : (if m.resets x then n + 1 else n) < UInt64.size)
    (hs : (m.step x).suspensions < UInt64.size) :
    Abreast k d (if m.resets x then n + 1 else n) (if m.resets x then n' + 1 else n') (m.step x)
      (m'.step x) ∧ m.outcome x = m'.outcome x := by
  obtain ⟨hstep, houtcome⟩ := h.echoes.step h.aware h.aware' h.inTime h.inTime' x
  have hle : (if m.resets x then n' + 1 else n') ≤ if m.resets x then n + 1 else n := by
    have := h.resets
    split <;> omega
  have haware' := h.aware'.step (h.echoes.spared hx)
    (h.echoes.resets x ▸ Nat.lt_of_le_of_lt hle hn)
  rw [← h.echoes.resets x] at haware'
  have hinTime' := h.inTime'.step x (Nat.lt_of_le_of_lt hstep.suspensions hs)
  exact ⟨⟨hstep, h.aware.step hx hn, haware', h.inTime.step x hs, hinTime', hle⟩, houtcome⟩

theorem run (h : Abreast k d n n' m m') {xs : List Move} (hx : Along Spared m xs)
    (hn : n + m.resetsIn xs < UInt64.size) (hs : (m.run xs).suspensions < UInt64.size) :
    m.outcomes xs = m'.outcomes xs ∧ (m.run xs).outlook d = (m'.run xs).outlook .zero := by
  induction xs generalizing m m' n n' with
  | nil => exact ⟨rfl, h.echoes.outlook h.aware h.aware'⟩
  | cons x xs ih =>
    rw [add_resetsIn_cons] at hn
    obtain ⟨hstep, houtcome⟩ := h.step hx.1 (Nat.lt_of_le_of_lt (Nat.le_add_right _ _) hn)
      (Nat.lt_of_le_of_lt (suspensions_le_run xs) hs)
    obtain ⟨houtcomes, houtlook⟩ := ih hstep hx.2 hn hs
    exact ⟨by rw [outcomes, outcomes, houtcome, houtcomes], houtlook⟩

end Abreast

/-! ### Where they set out from -/

/-- What is left of the way in which a tracer was made, whatever has happened since. -/
structure Made (s : Settings) (hasHandler : Bool) (m : Machine) : Prop where
  captureReturns : m.tracer.captureReturns = s.captureReturns
  expandOnFirstInvoke : m.tracer.expandOnFirstInvoke = s.expandOnFirstInvoke
  hasHandler : m.tracer.hasHandler = hasHandler
  steady : m.Steady
  seated : ∃ limit, m.tracer.roster.Seated m.tracer.quota limit
  held : ∀ s ∈ m.tracer.suspension.held, s < m.tracer.roster.callStacks.size
  suspensions : m.tracer.suspension.suspended = true → 0 < m.suspensions

namespace Made
variable {s : Settings} {hasHandler : Bool}

theorem new (id : Nat) (s : Settings) (hasHandler : Bool) :
    (Machine.new (.new id s hasHandler)).Made s hasHandler where
  captureReturns := rfl
  expandOnFirstInvoke := rfl
  hasHandler := rfl
  steady := .new id s hasHandler
  seated := ⟨s.threadSlots, .new id s.threadSlots⟩
  held := List.forall_mem_nil _
  suspensions h := by cases h

theorem step (h : m.Made s hasHandler) (x : Move) : (m.step x).Made s hasHandler := by
  obtain ⟨hcapture, hexpand, hhandler⟩ := m.flags_step x
  obtain ⟨limit, hseated⟩ := h.seated
  have hsteady := h.steady.step x
  have hseated' := seated_step hseated x
  have hsize := m.size_le_step x
  have hflow := h.steady.flow x
  have hsuspension : (∀ s ∈ (m.step x).tracer.suspension.held,
        s < (m.step x).tracer.roster.callStacks.size) ∧
      ((m.step x).tracer.suspension.suspended = true → 0 < (m.step x).suspensions) := by
    generalize m.step x = m', m.news x = news at hsize hflow
    have hheld : ∀ s ∈ m.tracer.suspension.held, s < m'.tracer.roster.callStacks.size :=
      fun s hs => Nat.lt_of_lt_of_le (h.held s hs) hsize
    cases hflow with
    | quiet _ hw | advance _ hw =>
      rw [hw.suspension, hw.suspensions]
      exact ⟨hheld, h.suspensions⟩
    | suspend hs =>
      exact ⟨fun s hs => Nat.lt_of_lt_of_le (hseated.mem_slots.mp hs).2 hsize,
        fun _ => Nat.succ_pos _⟩
    | resume hs => exact ⟨List.forall_mem_nil _, fun h => by cases h⟩
    | reset hs => exact ⟨hheld, h.suspensions⟩
    | drain => exact ⟨hheld, h.suspensions⟩
  exact ⟨hcapture.trans h.captureReturns, hexpand.trans h.expandOnFirstInvoke,
    hhandler.trans h.hasHandler, hsteady, ⟨_, hseated'⟩, hsuspension.1, hsuspension.2⟩

theorem run (h : m.Made s hasHandler) (xs : List Move) : (m.run xs).Made s hasHandler := by
  induction xs generalizing m with
  | nil => exact h
  | cons x xs ih => exact ih (h.step x)

end Made

theorem suspended_suspend (m : Machine) : (m.step .suspend).tracer.suspension.suspended = true := by
  simp only [step, suspend, Tracer.suspend_eq]
  cases hs : m.tracer.suspension.suspended with
  | true => exact hs
  | false => rfl

/-- Who is excluded has been excluded at some time. -/
theorem mem_excluded_run (m : Machine) (xs : List Move) (i : Nat) :
    i ∈ (m.run xs).tracer.roster.excluded ↔
      .exclude i ∈ xs ∨ i ∈ m.tracer.roster.excluded := by
  induction xs generalizing m with
  | nil => simp
  | cons x xs ih =>
    have hx : i ∈ x.excluded?.toList ↔ Move.exclude i = x := by
      cases x <;> simp [Move.excluded?]
    rw [run_cons, ih, mem_excluded_step, List.mem_append, hx, List.mem_cons, or_assoc, or_left_comm]

/-- A new tracer from which threads have been excluded. -/
theorem run_exclude (id : Nat) (s : Settings) (hasHandler : Bool) (barred : List Nat) :
    let m := (Machine.new (.new id s hasHandler)).run (barred.map .exclude)
    m.Aware 0 ∧ ∃ excluded memory, m = { Machine.new (.new id s hasHandler) with
      tracer := { Tracer.new id s hasHandler with
        roster := { Roster.new id with excluded := excluded } }
      memory := memory } := by
  induction barred using List.reverseRecOn with
  | nil => exact ⟨.new id s hasHandler, [], _, rfl⟩
  | append_singleton barred i ih =>
    obtain ⟨haware, excluded, memory, heq⟩ := ih
    dsimp only at haware heq ⊢
    rw [List.map_append, run_append]
    rw [heq] at haware ⊢
    have hspared : Spared { Machine.new (.new id s hasHandler) with
        tracer := { Tracer.new id s hasHandler with
          roster := { Roster.new id with excluded := excluded } }
        memory := memory } (.exclude i) := fun _ _ => rfl
    exact ⟨haware.step hspared (show 0 < UInt64.size by decide), _, _, rfl⟩

theorem step_reset (hs : m.tracer.suspension.suspended = true) (l : Settings.Limits) :
    m.step (.reset l) = { m with
      tracer := { m.tracer with
        invoked := .empty
        roster := m.tracer.roster.clear
        quota := ⟨l.threadSlots⟩
        queue := m.tracer.queue.reset l.bufferCapacity.toNat
        depthLimit := l.depthLimit }
      past := m.history } := by
  rcases hr : m.tracer.reset l with e | t
  · rw [Tracer.reset_eq_error hr] at hs
    cases hs
  · obtain ⟨-, rfl⟩ := Tracer.reset_eq_ok hr
    simp only [step, reset, hr]

/-- A tracer that has been reset while nobody was calling, and a new one. -/
theorem Made.abreast {s : Settings} {hasHandler : Bool} (h : m.Made s hasHandler)
    (hs : m.tracer.suspension.suspended = true) (hidle : ∀ i, m.active i = [])
    (hmindful : m.Mindful n fun _ => True) (hn : n + 1 < UInt64.size) (ht : m.InTime)
    (l : Settings.Limits) (id : Nat) {barred : List Nat}
    (hbarred : ∀ i, i ∈ barred ↔ i ∈ m.tracer.roster.excluded) :
    let fresh := (Machine.new (.new id (s.withLimits l) hasHandler)).run
      (barred.map .exclude ++ [.suspend, .drain])
    Abreast m.tracer.roster.callStacks.size m.tracer.tally (n + 1) 0 (m.step (.reset l)) fresh ∧
      fresh.tracer.tally = .zero := by
  obtain ⟨haware, excluded, memory, heq⟩ := run_exclude id (s.withLimits l) hasHandler barred
  have hexcluded : ∀ i, i ∈ m.tracer.roster.excluded ↔ i ∈ excluded := by
    intro i
    have hmem := (Machine.new (.new id (s.withLimits l) hasHandler)).mem_excluded_run
      (barred.map .exclude) i
    rw [heq] at hmem
    rw [← hbarred]
    simpa [Machine.new, Tracer.new, Roster.new] using hmem.symm
  have hinTime := (InTime.new id (s.withLimits l) hasHandler).run
    (barred.map .exclude ++ [.suspend, .drain])
  rw [run_append, heq] at hinTime ⊢
  rw [heq] at haware
  have haware' := (haware.step (x := .suspend) (fun _ h => by cases h)
    (show 0 < UInt64.size by decide)).step (x := .drain) (fun _ h => by cases h)
    (show 0 < UInt64.size by decide)
  have htime : (m.step (.reset l)).InTime := by
    rw [step_reset hs]
    exact ht.congr rfl rfl rfl rfl rfl
  refine ⟨⟨⟨?_, fun i => ?_, ?_⟩, hmindful.reset hn hs l, haware', htime,
    hinTime (show 1 < UInt64.size by decide), Nat.zero_le _⟩, rfl⟩
  · rw [step_reset hs]
    exact {
      captureReturns := h.captureReturns
      expandOnFirstInvoke := h.expandOnFirstInvoke
      hasHandler := h.hasHandler
      depthLimit := rfl
      invoked := rfl
      quota := rfl
      queue := ⟨rfl, rfl, rfl, h.steady.isClosed.trans hs⟩
      roster := ⟨rfl, rfl, hexcluded, (Nat.zero_add _).symm, fun j =>
        Roster.stack?_eq_none_iff.mpr (Nat.le_add_left _ _)⟩
      tally := Tally.since_self _
      suspended := hs
      held := ⟨m.tracer.suspension.held, h.held, (List.append_nil _).symm⟩ }
  · rw [step_reset hs]
    change List.Forall₂ _ (m.active i) []
    rw [hidle]
    exact .nil
  · rw [step_reset hs]
    exact h.suspensions hs

end Machine

/-- A tracer that is suspended and reset while no call is in progress cannot be told from a new one
that is made with the limits of the reset, excludes the same threads, and is suspended and drained.
Nobody may be excluded that is registered, and neither generations nor epochs may come back. -/
theorem reset_is_fresh_start (id id' : Nat) (s : Settings) (hasHandler : Bool) (xs : List Move)
    (l : Settings.Limits) (barred : List Nat) (ys : List Move) :
    let m := (Machine.new (.new id s hasHandler)).run xs
    let old := m.run [.suspend, .reset l]
    let fresh := (Machine.new (.new id' (s.withLimits l) hasHandler)).run
      (barred.map .exclude ++ [.suspend, .drain])
    (∀ i, m.active i = []) → (∀ i, i ∈ barred ↔ .exclude i ∈ xs) → old.Along Machine.Spared ys →
    (Machine.new (.new id s hasHandler)).resetsIn (xs ++ [.suspend, .reset l] ++ ys) < UInt64.size →
    (old.run ys).suspensions < UInt64.size →
    old.outcomes ys = fresh.outcomes ys ∧
      (old.run ys).outlook old.tracer.tally = (fresh.run ys).outlook fresh.tracer.tally := by
  intro m old fresh hidle hbarred hspared hresets hsuspensions
  have hsplit : m.run [.suspend] = (Machine.new (.new id s hasHandler)).run (xs ++ [.suspend]) :=
    (Machine.run_append ..).symm
  have hs : (m.run [.suspend]).tracer.suspension.suspended = true := m.suspended_suspend
  have hactive : ∀ i, (m.run [.suspend]).active i = [] := fun i => by
    change (m.step .suspend).active i = []
    rcases m.suspend_cases with heq | ⟨-, heq⟩ <;> rw [Machine.step, heq] <;> exact hidle i
  have htally : old.tracer.tally = (m.run [.suspend]).tracer.tally := by
    change ((m.run [.suspend]).step (.reset l)).tracer.tally = _
    rw [Machine.step_reset hs]
  have hcount : (m.run [.suspend]).resetsIn (.reset l :: ys) =
      1 + ((m.run [.suspend]).step (.reset l)).resetsIn ys := by
    rw [Machine.resetsIn, Machine.resets, hs]
    rfl
  have hlt : (m.run [.suspend]).suspensions < UInt64.size :=
    Nat.lt_of_le_of_lt (Machine.suspensions_le_run (.reset l :: ys)) hsuspensions
  rw [show xs ++ [.suspend, .reset l] ++ ys = xs ++ [.suspend] ++ .reset l :: ys by simp,
    Machine.resetsIn_append, ← hsplit, hcount] at hresets
  rw [hsplit] at hlt
  have hmade := (Machine.Made.new id s hasHandler).run (xs ++ [.suspend])
  have hmindful := (Machine.Mindful.new id s hasHandler fun _ => True).run (xs ++ [.suspend])
    (by omega)
  have hinTime := (Machine.InTime.new id s hasHandler).run (xs ++ [.suspend]) hlt
  have hexcluded : ∀ i, i ∈ barred ↔ i ∈ (m.run [.suspend]).tracer.roster.excluded := by
    intro i
    rw [hbarred, hsplit, Machine.mem_excluded_run]
    simp [Machine.new, Tracer.new, Roster.new]
  rw [← hsplit] at hmade hmindful hinTime
  obtain ⟨habreast, htally'⟩ := hmade.abreast hs hactive hmindful (by omega) hinTime l id' hexcluded
  rw [htally, htally']
  exact habreast.run hspared (by omega) hsuspensions

/-- Two threads have been registered and one is excluded as all is reset. Then both enter again, the
second one first, while tracing is suspended and resumed. -/
theorem reset_is_fresh_start_two_threads :
    let calls (i n : Nat) (h : Hook) : List Move :=
      .call ⟨i, none⟩ ⟨h, ⟨1⟩, none⟩ true :: List.replicate n (.advance ⟨i, none⟩)
    let xs := calls 0 5 .rootEntry ++ calls 1 5 .markerEntry ++ [.exclude 2, .suspend, .resume]
    let l : Settings.Limits := ⟨2, 3, 1⟩
    let ys := .resume :: calls 1 5 .rootEntry ++ calls 2 1 .rootEntry ++ calls 0 3 .markerEntry ++
      [.suspend, .advance ⟨0, none⟩, .advance ⟨0, none⟩, .look 0, .drain, .resume] ++ calls 1 5 .rootExit
    let m := (Machine.new (.new 0 .default false)).run xs
    let old := m.run [.suspend, .reset l]
    let fresh := (Machine.new (.new 7 (Settings.default.withLimits l) false)).run
      ([2].map .exclude ++ [.suspend, .drain])
    ((∀ i, m.active i = []) ∧ (∀ i, i ∈ [2] ↔ .exclude i ∈ xs) ∧ old.Along Machine.Spared ys ∧
      (Machine.new (.new 0 .default false)).resetsIn (xs ++ [.suspend, .reset l] ++ ys) <
        UInt64.size ∧
      (old.run ys).suspensions < UInt64.size) ∧
      m.tracer.roster.size = 2 ∧ (old.run ys).tracer.roster.size = 2 ∧
      old.outcomes ys = fresh.outcomes ys ∧
      (old.run ys).outlook old.tracer.tally = (fresh.run ys).outlook fresh.tracer.tally := by
  intro calls xs l ys m old fresh
  have hidle : ∀ i, m.active i = []
    | 0 => by decide +kernel
    | 1 => by decide +kernel
    | _ + 2 => rfl
  have hbarred : ∀ i, i ∈ [2] ↔ .exclude i ∈ xs := fun i => by simp [xs, calls]
  have hspared : old.Along Machine.Spared ys := by decide +kernel
  have hresets : (Machine.new (.new 0 .default false)).resetsIn
      (xs ++ [.suspend, .reset l] ++ ys) < UInt64.size := by decide +kernel
  have hsuspensions : (old.run ys).suspensions < UInt64.size := by decide +kernel
  exact ⟨⟨hidle, hbarred, hspared, hresets, hsuspensions⟩, by decide +kernel, by decide +kernel,
    reset_is_fresh_start 0 7 .default false xs l [2] ys hidle hbarred hspared hresets hsuspensions⟩

end MethodTrace
