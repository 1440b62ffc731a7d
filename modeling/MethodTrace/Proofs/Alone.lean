import MethodTrace.Proofs.Herald
import MethodTrace.Proofs.Lone
import MethodTrace.Proofs.Room
import MethodTrace.Proofs.Sifting

/-!
# Every thread on its own

In a tracer that has room for all threads that call hooks, and where nobody is told of first
invocations, every thread fares as it would without the others (`Roomy.lone_run`): its own hooks do to
it what `Lone.step` says, and those of other threads do nothing to it.
-/

namespace MethodTrace

namespace Machine
variable {m m' : Machine} {limit : UInt32} {i : Nat} {x : Move} {crew : List Nat}

/-- What a thread has of the machine. -/
def lone (m : Machine) (i : Nat) : Lone where
  thread := i
  roster := m.tracer.roster.id
  scribe := m.tracer.scribe .all
  suspended := m.tracer.suspension.suspended
  epoch := m.tracer.suspension.epoch
  held := (m.tracer.roster.slot? i).any (· ∈ m.tracer.suspension.held)
  excluded := decide (i ∈ m.tracer.roster.excluded)
  known := (m.tracer.roster.recollect (m.memory i)).map Standing.unplaced
  stack := (m.view i).stack.map CallStack.unnumbered
  calls := (m.active i).map Activity.unplaced
  records := (m.view i).records.map Record.unnumbered

/-- What no other thread's move changes. -/
theorem lone_congr (hid : m'.tracer.roster.id = m.tracer.roster.id)
    (hgeneration : m'.tracer.roster.generation = m.tracer.roster.generation)
    (hscribe : m'.tracer.scribe = m.tracer.scribe)
    (hsuspension : m'.tracer.suspension = m.tracer.suspension)
    (hslot : m'.tracer.roster.slot? i = m.tracer.roster.slot? i)
    (hexcluded : i ∈ m'.tracer.roster.excluded ↔ i ∈ m.tracer.roster.excluded)
    (hmemory : m'.memory i = m.memory i) (hactive : m'.active i = m.active i)
    (hstack : (m'.view i).stack = (m.view i).stack)
    (hrecords : (m'.view i).records = (m.view i).records) : m'.lone i = m.lone i := by
  simp only [lone, hid, hscribe, hsuspension, hslot, hexcluded, hmemory, hactive, hstack, hrecords,
    Roster.recollect_congr hid hgeneration]

theorem lone_note (m : Machine) (i j : Nat) (c : Call) : (m.note j c).lone i = m.lone i := by
  simp [lone, view, View.of, history]

theorem lone_remember (m : Machine) (i : Nat) (memory : Memory) :
    (m.remember i memory).lone i = { m.lone i with
      known := (m.tracer.roster.recollect memory).map Standing.unplaced } := by
  simp only [lone, remember, Function.update_self]
  rfl

theorem lone_exclude (m : Machine) (i : Nat) :
    (m.exclude i).lone i = { m.lone i with excluded := true, known := some .denied } := by
  have hexcluded : decide (i ∈ (m.tracer.roster.exclude i).1.excluded) = true := by
    unfold Roster.exclude
    dsimp only
    split <;> simp [*]
  have hknown := m.tracer.roster.recollect_memoryOf .denied
  rw [exclude, lone_remember]
  show ({ m.lone i with
    excluded := decide (i ∈ (m.tracer.roster.exclude i).1.excluded)
    known := (m.tracer.roster.recollect (m.tracer.roster.memoryOf .denied)).map _ } : Lone) = _
  rw [hexcluded, hknown]
  rfl

/-! ### Lookups -/

theorem Orderly.standing_lone (ho : m.Orderly limit) (i : Nat) :
    (m.lone i).standing = (m.tracer.roster.lookup i).unplaced := by
  rcases hs : m.tracer.roster.slot? i with _ | s
  · have hlookup : m.tracer.roster.members.lookup i = none := hs
    have hstack : (m.lone i).stack = none := by
      simp [lone, view, View.of, Roster.stackOf_of_slot?_eq_none hs]
    rw [Lone.standing, hstack, Roster.lookup, hlookup]
    by_cases he : i ∈ m.tracer.roster.excluded <;> simp [lone, he, Standing.unplaced]
  · obtain ⟨c, hc⟩ := ho.sound.stack?_of_slot? hs
    have hstack : (m.lone i).stack.isSome = true := by
      simp [lone, view, View.of, Roster.stackOf_of_slot? hs, hc]
    rw [Lone.standing, hstack, Roster.lookup_eq_registered_iff.mpr hs]
    rfl

theorem Orderly.consult_lone (ho : m.Orderly limit) {st : Standing} {memory : Memory}
    (hc : m.tracer.roster.consult i (m.memory i) = (st, memory)) :
    (m.lone i).consult = st.unplaced ∧
      (m.tracer.roster.recollect memory).map Standing.unplaced = some st.unplaced := by
  unfold Roster.consult at hc
  split at hc
  · rename_i hr
    cases hc
    rw [Lone.consult, lone, hr]
    exact ⟨rfl, rfl⟩
  · rename_i hr
    cases hc
    rw [Lone.consult, ho.standing_lone, lone, hr, Roster.recollect_memoryOf]
    exact ⟨rfl, rfl⟩

/-- What a thread sees if it looks at its own stack is what it would see on its own. -/
theorem Orderly.snapshot_lone (ho : m.Orderly limit) (i : Nat) :
    (m.tracer.look i (m.memory i)).1.map CallStack.unnumbered = (m.lone i).snapshot := by
  rcases hc : m.tracer.roster.consult i (m.memory i) with ⟨st, memory⟩
  obtain ⟨hconsult, -⟩ := ho.consult_lone hc
  rw [Lone.snapshot, hconsult]
  cases st with
  | unregistered | denied => simp only [Tracer.look, hc]; rfl
  | registered s =>
    have hs := (ho.recalls i).slot?_of_registered hc
    obtain ⟨c, hstack⟩ := ho.sound.stack?_of_slot? hs
    have hguard := ho.guard i s c hs hstack
    have hweight :
        Int32.ofInt ((if (m.lone i).held then 1 else 0) + weight (m.lone i).calls) = c.guard := by
      rw [← Int32.ofInt_toInt c.guard, hguard, lone, weight_map_unplaced, hs, Suspension.weight]
      simp
    have hlone : (m.lone i).stack = some (c.withGuard 0).unnumbered := by
      simp [lone, view, View.of, Roster.stackOf_of_slot? hs, hstack]
    simp only [Tracer.look, hc, hstack, Standing.unplaced, hweight, hlone, Option.map_some]
    rfl

/-! ### Steps of a call -/

section goes
variable {who : OsThread} {c : Call} {counted : Bool} {st stage : Stage} {l : Local} {epoch : UInt64}
  {slot : Slot} {fresh : Bool} {memory : Memory}

/-- The stack and the records of the thread that a step of its call leaves behind, with what the
thread then remembers. -/
def left (m : Machine) (i : Nat) (l : Local) (m' : Machine) : Lone :=
  { m.lone i with
    known := (l.tracer.roster.recollect l.memory).map Standing.unplaced
    stack := (m'.view i).stack.map CallStack.unnumbered
    records := (m'.view i).records.map Record.unnumbered }

/-- A step of a call leaves the suspension and the settings as they are. -/
theorem Orderly.lone_put (ho : m.Orderly limit)
    (hgoes : c.Goes who ⟨m.tracer, m.memory who.id⟩ st l stage) (a : Activity) :
    let m' := m.put who.id ⟨a.settle l.tracer stage, l.memory⟩ (a.next stage)
    m'.lone who.id = { m.left who.id l m' with calls := a.unplaced.next stage.unplaced } := by
  intro m'
  obtain ⟨hid, hgeneration, hexcluded⟩ := hgoes.roster_same
  obtain ⟨hlimit, hcaptures⟩ := hgoes.settings
  have hsuspension := hgoes.suspension
  have hheld : (l.tracer.roster.slot? who.id).any (· ∈ m.tracer.suspension.held) =
      (m.tracer.roster.slot? who.id).any (· ∈ m.tracer.suspension.held) := by
    cases hgoes.seats with
    | same hr _ => rw [hr.slot? who.id]
    | enlist _ _ hnone _ hr =>
      -- the slot of a thread that is registered now was not there when tracing was suspended
      have hnot : m.tracer.roster.callStacks.size ∉ m.tracer.suspension.held :=
        fun hmem => Nat.lt_irrefl _ (ho.held_lt _ hmem)
      rw [hr, Roster.slot?_enlist_self who hnone, hnone]
      simp [hnot]
  have hactive : (m'.active who.id).map Activity.unplaced = a.unplaced.next stage.unplaced := by
    rw [← Activity.next_unplaced]
    simp [m', put]
  have hmemory : m'.tracer.roster.recollect (m'.memory who.id) =
      l.tracer.roster.recollect l.memory := by
    simp [m', put]
  simp only [left, lone, hactive, hmemory]
  simp [m', put, Tracer.scribe, hid, hexcluded, hlimit, hcaptures, hsuspension, hheld]

/-- Steps that only find out something. -/
theorem left_found (m : Machine) (i : Nat) (a : Activity) (memory : Memory) (stage : Stage) :
    m.left i ⟨m.tracer, memory⟩ (m.put i ⟨a.settle m.tracer stage, memory⟩ (a.next stage)) =
      { m.lone i with known := (m.tracer.roster.recollect memory).map Standing.unplaced } := by
  rw [left, view_found]
  rfl

theorem sealedTo_lone (hs : m.Steady) (i : Nat) (epoch : UInt64) :
    (m.lone i).sealedTo epoch = m.tracer.queue.keepsOut epoch := by
  rw [Lone.sealedTo, Queue.keepsOut, hs.closedFrom, lone]
  cases m.tracer.suspension.suspended <;> simp

theorem left_same (m : Machine) (i : Nat) (a : Activity) (stage : Stage) :
    m.left i ⟨m.tracer, m.memory i⟩
      (m.put i ⟨a.settle m.tracer stage, m.memory i⟩ (a.next stage)) = m.lone i :=
  left_found m i a (m.memory i) stage

theorem left_guarded (a : Activity) (stage : Stage) {slot : Slot} {s : CallStack}
    (hi : m.tracer.roster.slot? i = some slot) (hs : m.tracer.roster.stack? slot = some s)
    {f : CallStack → CallStack} (hf : (f s).withGuard 0 = s.withGuard 0) :
    m.left i ⟨m.tracer.modifyStack slot f, m.memory i⟩
      (m.put i ⟨a.settle (m.tracer.modifyStack slot f) stage, m.memory i⟩ (a.next stage)) =
      m.lone i := by
  rw [left, view_guarded a (m.memory i) stage hi hs hf]
  rfl

theorem stack_lone {slot : Slot} {s : CallStack} (hi : m.tracer.roster.slot? i = some slot)
    (hs : m.tracer.roster.stack? slot = some s) :
    (m.lone i).stack = some (s.withGuard 0).unnumbered := by
  simp [lone, view, View.of, Roster.stackOf_of_slot? hi, hs]

theorem greeting_lone (m : Machine) (i : Nat) (c : Call) (no : ThreadNo) (fresh : Bool) :
    c.greeting (m.lone i).scribe fresh =
      (c.greeting (m.tracer.scribe no) fresh).map Record.unnumbered :=
  c.greeting_unnumbered (m.tracer.scribe no) fresh

theorem deed_lone (m : Machine) (i : Nat) (c : Call) (s : CallStack) :
    c.deed (m.lone i).scribe (s.withGuard 0).unnumbered =
      (((c.deed (m.tracer.scribe s.no) s).1.withGuard 0).unnumbered,
        (c.deed (m.tracer.scribe s.no) s).2.map Record.unnumbered) := by
  have hunnumbered := c.deed_unnumbered (m.tracer.scribe s.no) (s.withGuard 0)
  rwa [Call.deed_withGuard] at hunnumbered

/-- A guard that no call holds is held just while tracing is suspended. -/
theorem Orderly.guarded_lone (ho : m.Orderly limit) {slot : Slot} {s : CallStack}
    (hi : m.tracer.roster.slot? i = some slot) (hs : m.tracer.roster.stack? slot = some s)
    (hweight : weight (m.active i) = 0) : s.guarded = (m.lone i).held := by
  have hguard := ho.guard i slot s hi hs
  rw [hweight, Suspension.weight] at hguard
  simp only [CallStack.guarded_eq, lone, hi, hguard, Option.any_some]
  by_cases hmem : slot ∈ m.tracer.suspension.held <;> simp [hmem]

theorem Orderly.left_enlist (ho : m.Orderly limit)
    (hact : m.active who.id = [⟨c, counted, .running epoch⟩])
    (hc : m.tracer.roster.consult who.id (m.memory who.id) = (.unregistered, memory))
    (hr : (m.tracer.roster.register who m.tracer.quota memory).slot = some slot) :
    let r := m.tracer.roster.register who m.tracer.quota memory
    let t : Tracer := { m.tracer with roster := r.roster, quota := r.quota }
    m.left who.id ⟨t, r.memory⟩
      (m.put who.id ⟨(Activity.mk c counted (.running epoch)).settle t (.enrolled epoch slot true),
        r.memory⟩ ((Activity.mk c counted (.running epoch)).next (.enrolled epoch slot true))) =
      { m.lone who.id with known := some (.registered 0), stack := some (.new .all who.name) } := by
  intro r t
  obtain ⟨hview, hview'⟩ := view_enlist ho hact hc hr
  have hnone := (ho.recalls who.id).slot?_of_unregistered hc
  have hknown : (t.roster.recollect r.memory).map Standing.unplaced = some (.registered 0) := by
    obtain ⟨-, -, q, -, heq⟩ := Roster.register_of_slot_eq_some hnone hr
    have hroster : t.roster = m.tracer.roster.enlist who := congrArg (·.roster) heq
    have hmemory : r.memory = _ := congrArg (·.memory) heq
    have hrecollect := (m.tracer.roster.enlist who).recollect_memoryOf
      (.registered m.tracer.roster.callStacks.size)
    rw [hroster, hmemory]
    exact congrArg (Option.map Standing.unplaced) hrecollect
  rw [left, hview', hknown, lone, hview]
  rfl

theorem Orderly.left_act (ho : m.Orderly limit) (hs : m.Steady)
    (hact : m.active who.id = [⟨c, counted, .guarding epoch slot fresh⟩])
    (hhandler : m.tracer.hasHandler = false)
    (hd : (c.act m.tracer epoch slot fresh).1.queue.dropped = m.tracer.queue.dropped) :
    let a : Activity := ⟨c, counted, .guarding epoch slot fresh⟩
    m.left who.id ⟨(c.act m.tracer epoch slot fresh).1, m.memory who.id⟩
      (m.put who.id ⟨a.settle (c.act m.tracer epoch slot fresh).1 (.closing slot),
        m.memory who.id⟩ (a.next (.closing slot))) = (m.lone who.id).act c epoch fresh := by
  intro a
  have hi := slot?_of_active ho hact rfl
  obtain ⟨s, hstack⟩ := ho.sound.stack?_of_slot? hi
  have hr : m.tracer.Reworks slot 0 (c.act m.tracer epoch slot fresh).1 := Call.act_touches.reworks
  rcases c.act_cases epoch fresh hstack with ⟨-, hstack', hwritten⟩ | ⟨o, hstage, -⟩
  swap
  · rw [Call.act_closes hhandler] at hstage
    cases hstage
  obtain ⟨new, hnew, hview⟩ := view_touched a (m.memory who.id) (.closing slot) hi hr hstack hstack'
  have hwrites : new = if (m.lone who.id).sealedTo epoch then [] else
      c.greeting (m.tracer.scribe s.no) fresh ++ (c.deed (m.tracer.scribe s.no) s).2 := by
    rw [sealedTo_lone hs]
    cases hk : m.tracer.queue.keepsOut epoch with
    | true =>
      have hsame : (c.act m.tracer epoch slot fresh).1.written = m.tracer.written := by
        rw [Tracer.written, Call.act_sealed hk, Tracer.written]
      exact List.self_eq_append_right.mp (hsame.symm.trans hnew)
    | false =>
      have hw := hwritten hk hd
      rw [hnew, List.append_assoc] at hw
      exact List.append_cancel_left hw
  have htouches : Tracer.Touches slot epoch m.tracer (c.act m.tracer epoch slot fresh).1 :=
    Call.act_touches
  have hknown : (c.act m.tracer epoch slot fresh).1.roster.recollect (m.memory who.id) =
      m.tracer.roster.recollect (m.memory who.id) :=
    Roster.recollect_congr (congrArg Roster.id htouches.roster)
      (congrArg Roster.generation htouches.roster) _
  rw [Lone.act_of_stack (stack_lone hi hstack), greeting_lone m who.id c s.no, deed_lone, left, hview,
    hwrites, hknown]
  dsimp only
  rw [List.map_append, apply_ite (List.map Record.unnumbered), List.map_append]
  rfl

/-- A call of a thread does what it does if the thread is on its own. -/
theorem Orderly.advance_lone (ho : m.Orderly limit) (hs : m.Steady) {a : Activity}
    (hhandler : m.tracer.hasHandler = false) (htells : a.stage.tells = false)
    (hact : m.active who.id = [a])
    (hgoes : a.call.Goes who ⟨m.tracer, m.memory who.id⟩ a.stage l stage)
    (hroom : m.tracer.roster.slot? who.id = none → m.tracer.quota.remaining ≠ 0)
    (hd : l.tracer.queue.dropped = m.tracer.queue.dropped) :
    (m.lone who.id).advance who a.call a.stage.unplaced =
      (m.left who.id l (m.put who.id ⟨a.settle l.tracer stage, l.memory⟩ (a.next stage)),
        stage.unplaced) := by
  have ha : a ∈ m.active who.id := by rw [hact]; exact List.mem_cons_self
  have hslot := ho.slot who.id a ha
  have hover := (ho.stacked who.id).isOver_eq_false ha
  obtain ⟨c, counted, st⟩ := a
  have hweight : st.guards = false → weight (m.active who.id) = 0 := fun hst => by
    rw [hact, weight_cons, Stage.weight_of_not_guards hst, weight_nil]
    rfl
  cases hgoes with
  | suspended hnone =>
    have hsuspended : (m.lone who.id).suspended = true := Suspension.openEpoch_eq_none_iff.mp hnone
    rw [left_same]
    show (m.lone who.id, if (m.lone who.id).suspended then _ else _) = _
    rw [if_pos hsuspended]
    rfl
  | start hsome =>
    obtain ⟨hnot, rfl⟩ := Suspension.openEpoch_eq_some_iff.mp hsome
    have hsuspended : (m.lone who.id).suspended = false := hnot
    rw [left_same]
    show (m.lone who.id, if (m.lone who.id).suspended then _ else _) = _
    rw [hsuspended]
    rfl
  | find hc | denied hc =>
    obtain ⟨hconsult, hknown⟩ := ho.consult_lone hc
    rw [left_found, hknown]
    show (m.lone who.id).enroll who c _ = _
    rw [Lone.enroll, hconsult]
    rfl
  | stranger hc henrolls =>
    obtain ⟨hconsult, hknown⟩ := ho.consult_lone hc
    rw [left_found, hknown]
    show (m.lone who.id).enroll who c _ = _
    rw [Lone.enroll, hconsult, henrolls]
    rfl
  | register hc henrolls hr =>
    obtain ⟨hconsult, -⟩ := ho.consult_lone hc
    rw [ho.left_enlist hact hc hr]
    show (m.lone who.id).enroll who c _ = _
    rw [Lone.enroll, hconsult, henrolls]
    rfl
  | refuse hc henrolls hr =>
    -- there is room, and a thread that is excluded would have been told so by the lookup
    exfalso
    have hnone := (ho.recalls who.id).slot?_of_unregistered hc
    obtain ⟨hfull | hexcluded, -⟩ := Roster.register_of_slot_eq_none hnone hr
    · exact hroom hnone hfull
    · have hlookup : m.tracer.roster.lookup who.id = .denied := by
        have hnone' : m.tracer.roster.members.lookup who.id = none := hnone
        rw [Roster.lookup, hnone']
        exact if_pos hexcluded
      rcases ((ho.recalls who.id).consult hc).1 with heq | heq
      · rw [hlookup] at heq
        cases heq
      · cases heq
  | lost hnone =>
    obtain ⟨s, hs⟩ := ho.sound.stack?_of_slot? (hslot _ rfl)
    rw [hnone] at hs
    cases hs
  | @skip l epoch slot fresh s hs hnot =>
    have hconcerns : c.hook.concerns (s.withGuard 0).unnumbered = false := hnot
    rw [left_same]
    show (m.lone who.id, if (m.lone who.id).stack.any c.hook.concerns then _ else _) = _
    rw [stack_lone (hslot _ rfl) hs, Option.any_some, hconcerns]
    rfl
  | @clear l epoch slot fresh s hs hcon =>
    have hconcerns : c.hook.concerns (s.withGuard 0).unnumbered = true := hcon
    rw [left_same]
    show (m.lone who.id, if (m.lone who.id).stack.any c.hook.concerns then _ else _) = _
    rw [stack_lone (hslot _ rfl) hs, Option.any_some, hconcerns]
    rfl
  | guarded hg =>
    obtain ⟨s, hs⟩ := ho.sound.stack?_of_slot? (hslot _ rfl)
    have hheld := (ho.guarded_lone (hslot _ rfl) hs (hweight rfl)).symm.trans (hg s hs)
    rw [left_same]
    show (m.lone who.id, if (m.lone who.id).held then _ else _) = _
    rw [hheld]
    rfl
  | guard hs hg =>
    have hheld := (ho.guarded_lone (hslot _ rfl) hs (hweight rfl)).symm.trans hg
    rw [left_guarded _ _ (hslot _ rfl) hs rfl]
    show (m.lone who.id, if (m.lone who.id).held then _ else _) = _
    rw [hheld]
    rfl
  | @act t memory epoch slot fresh =>
    have hstage := Call.act_closes (c := c) hhandler epoch slot fresh
    rw [hstage]
    rw [ho.left_act hs hact hhandler hd]
    rfl
  | tell => cases htells
  | close =>
    obtain ⟨s, hs⟩ := ho.sound.stack?_of_slot? (hslot _ rfl)
    rw [left_guarded _ _ (hslot _ rfl) hs rfl]
    rfl
  | ended => cases hover

end goes

/-! ### Moves -/

/-- There is room for all threads that call hooks, and nobody is told of first invocations. -/
structure Roomy (crew : List Nat) (limit : UInt32) (m : Machine) : Prop where
  orderly : m.Orderly limit
  steady : m.Steady
  untold : m.Untold
  manned : Manned crew m
  fits : crew.length ≤ limit.toNat

namespace Roomy

theorem new (id : Nat) (s : Settings) {crew : List Nat} (h : crew.length ≤ s.threadSlots.toNat) :
    Roomy crew s.threadSlots (.new (.new id s false)) :=
  ⟨.new id s false, .new id s false, .new id s, .new id s false crew, h⟩

theorem step (h : Roomy crew limit m) (hx : x.isReset = false) (hcall : ∀ j ∈ x.caller?, j ∈ crew) :
    Roomy crew limit (m.step x) :=
  ⟨h.orderly.step x hx, h.steady.step x, h.untold.step x, h.manned.step hx hcall, h.fits⟩

variable (h : Roomy crew limit m)
include h

theorem advance_self (who : OsThread)
    (hd : (m.step (.advance who)).tracer.queue.dropped = m.tracer.queue.dropped) :
    (m.step (.advance who)).lone who.id = (m.lone who.id).step (.advance who) ∧
      m.outcome (.advance who) = (m.lone who.id).outcome (.advance who) := by
  have hthread : who.id = (m.lone who.id).thread := rfl
  rcases hact : m.active who.id with _ | ⟨a, rest⟩
  · have hcalls : (m.lone who.id).calls = [] := by rw [lone, hact]; rfl
    have hstep : m.step (.advance who) = m := advance_of_idle hact
    rw [hstep, Lone.step, if_pos hthread, hcalls]
    simp only [outcome, hact, Lone.outcome, hcalls, and_self]
  · obtain rfl := h.untold.rest_eq_nil h.orderly hact
    have ha : a ∈ m.active who.id := by rw [hact]; exact List.mem_cons_self
    have hcalls : (m.lone who.id).calls = [a.unplaced] := by rw [lone, hact]; rfl
    obtain ⟨l, stage, hgoes, hstep, houtcome⟩ := advance_outcome hact
    rw [List.append_nil] at hstep
    have hmember : who.id ∈ crew := h.manned.active who.id (by rw [hact]; simp)
    have hroom := h.manned.room h.orderly h.fits hmember
    have hd' : l.tracer.queue.dropped = m.tracer.queue.dropped := by
      rw [← hd, hstep]
      simp [put]
    have hadvance := h.orderly.advance_lone h.steady h.untold.hasHandler (h.untold.tells who.id a ha)
      hact hgoes hroom hd'
    have hput := h.orderly.lone_put hgoes a
    rw [← hstep] at hput
    have hcall : (m.lone who.id).advance who a.unplaced.call a.unplaced.stage = _ := hadvance
    constructor
    · rw [hput, Lone.step_advance hthread hcalls, hcall, ← hstep]
    · rw [houtcome, Lone.outcome_advance hcalls, hcall]
      exact (Stage.unplaced_outcome ..).symm

theorem call_self (who : OsThread) (c : Call) (counted : Bool) :
    (m.step (.call who c counted)).lone who.id = (m.lone who.id).step (.call who c counted) ∧
      m.outcome (.call who c counted) = (m.lone who.id).outcome (.call who c counted) := by
  have hthread : who.id = (m.lone who.id).thread := rfl
  by_cases hr : m.ready who.id = true
  · have hact := h.untold.active_of_ready h.orderly hr
    have hcalls : (m.lone who.id).calls = [] := by rw [lone, hact]; rfl
    obtain ⟨l, stage, hgoes, hstep, houtcome⟩ := call_outcome c counted hr
    have hl : l = ⟨(m.note who.id c).tracer, (m.note who.id c).memory who.id⟩ := by
      rw [note_tracer, note_memory]
      cases hgoes <;> rfl
    have hstage : stage.unplaced = ((m.lone who.id).advance who c .called).2 := by
      cases hgoes with
      | suspended hnone => exact (if_pos (Suspension.openEpoch_eq_none_iff.mp hnone)).symm
      | start hsome =>
        obtain ⟨hnot, rfl⟩ := Suspension.openEpoch_eq_some_iff.mp hsome
        exact (if_neg (by rw [lone, hnot]; exact Bool.false_ne_true)).symm
    constructor
    · have hnote : (m.note who.id c).Orderly limit := by
        refine h.orderly.congr ?_ ?_ ?_ ?_ ?_ ?_ <;> simp [history]
      have hgoes' : c.Goes who ⟨(m.note who.id c).tracer, (m.note who.id c).memory who.id⟩ .called l
          stage := by simpa using hgoes
      have hput := hnote.lone_put hgoes' ⟨c, counted, .called⟩
      rw [hact, List.append_nil] at hstep
      rw [← hstep] at hput
      have hleft := (m.note who.id c).left_same who.id ⟨c, counted, .called⟩ stage
      rw [hl] at hstep hput
      rw [← hstep] at hleft
      rw [hput, hleft, lone_note, Lone.step, if_pos ⟨hthread, hcalls⟩, hstage]
      rfl
    · rw [houtcome, Lone.outcome, if_pos hcalls, ← hstage, Stage.unplaced_outcome]
  · have hcalls : (m.lone who.id).calls ≠ [] := by
      intro hnil
      have hact : m.active who.id = [] := List.map_eq_nil_iff.mp hnil
      rw [ready, hact] at hr
      exact hr rfl
    rw [Machine.step, Machine.call, if_neg hr, Lone.step, if_neg (fun h => hcalls h.2), outcome,
      if_neg hr, Lone.outcome, if_neg hcalls]
    exact ⟨rfl, rfl⟩

omit h in
theorem lone_put_of_ne {who : OsThread} {c : Call} {st stage : Stage} {l : Local}
    (hgoes : c.Goes who ⟨m.tracer, m.memory who.id⟩ st l stage) (hne : i ≠ who.id) (a : Activity)
    (calls : List Activity)
    (hstack : ((m.put who.id ⟨a.settle l.tracer stage, l.memory⟩ calls).view i).stack =
      (m.view i).stack)
    (hrecords : ((m.put who.id ⟨a.settle l.tracer stage, l.memory⟩ calls).view i).records =
      (m.view i).records) :
    (m.put who.id ⟨a.settle l.tracer stage, l.memory⟩ calls).lone i = m.lone i := by
  obtain ⟨hid, hgeneration, hexcluded⟩ := hgoes.roster_same
  obtain ⟨hlimit, hcaptures⟩ := hgoes.settings
  have hslot : l.tracer.roster.slot? i = m.tracer.roster.slot? i := by
    cases hgoes.seats with
    | same hr _ => exact hr.slot? i
    | enlist _ _ _ _ hr => rw [hr, Roster.slot?_enlist_of_ne hne]
  refine lone_congr ?_ ?_ ?_ ?_ ?_ ?_ ?_ ?_ hstack hrecords
  · simpa [put] using hid
  · simpa [put] using hgeneration
  · funext no
    simp [put, Tracer.scribe, hlimit, hcaptures]
  · simpa [put] using hgoes.suspension
  · simpa [put] using hslot
  · simp [put, hexcluded]
  · simp [put, hne]
  · simp [put, hne]

/-- The calls of other threads do nothing to a thread. -/
theorem step_of_ne {j : Nat} (hx : x.mover? = some j) (hne : i ≠ j) :
    (m.step x).lone i = m.lone i := by
  have hi : x.mover? ≠ some i := by
    rw [hx]
    exact fun heq => hne (Option.some.inj heq).symm
  cases x with
  | call who c counted =>
    cases hx
    by_cases hr : m.ready who.id = true
    · obtain ⟨l, stage, hgoes, hstep⟩ := call_goes c counted hr
      have hgoes' : c.Goes who ⟨(m.note who.id c).tracer, (m.note who.id c).memory who.id⟩ .called l
          stage := by simpa using hgoes
      have hview := view_step_of_ne h.orderly (.call who c counted) rfl hi
      rw [hstep] at hview ⊢
      rw [lone_put_of_ne hgoes' hne ⟨c, counted, .called⟩, lone_note]
      · rw [hview]
        simp [view, View.of]
      · rw [hview]
        simp [view, View.of, history]
    · rw [Machine.step, Machine.call, if_neg hr]
  | advance who =>
    cases hx
    rcases hact : m.active who.id with _ | ⟨a, rest⟩
    · rw [Machine.step, advance_of_idle hact]
    · obtain ⟨l, stage, hgoes, hstep⟩ := advance_goes hact
      have hview := view_step_of_ne h.orderly (.advance who) rfl hi
      rw [hstep] at hview ⊢
      exact lone_put_of_ne hgoes hne a _ (congrArg View.stack hview) (congrArg View.records hview)
  | _ => cases hx

omit h in
/-- What suspending and resuming have in common: beside the stacks only the suspension changes. -/
theorem lone_control {t : Tracer} {n : Nat}
    (hview : { m with tracer := t, suspensions := n }.view i = m.view i)
    (hroster : t.roster = { m.tracer.roster with callStacks := t.roster.callStacks })
    (hscribe : t.scribe = m.tracer.scribe) :
    { m with tracer := t, suspensions := n }.lone i = { m.lone i with
      suspended := t.suspension.suspended
      epoch := t.suspension.epoch
      held := (m.tracer.roster.slot? i).any (· ∈ t.suspension.held) } := by
  have hslot : t.roster.slot? i = m.tracer.roster.slot? i := by rw [hroster]; rfl
  have hknown : t.roster.recollect (m.memory i) = m.tracer.roster.recollect (m.memory i) :=
    Roster.recollect_congr (congrArg Roster.id hroster) (congrArg Roster.generation hroster) _
  have hid : t.roster.id = m.tracer.roster.id := by rw [hroster]
  have hexcluded : t.roster.excluded = m.tracer.roster.excluded := by rw [hroster]
  simp only [lone, hview, hslot, hknown, hid, hexcluded, hscribe]

/-- Who is registered is suspended with all others. -/
theorem held_suspend (i : Nat) :
    (m.tracer.roster.slot? i).any (· ∈ m.tracer.roster.slots) = (m.lone i).stack.isSome := by
  rcases hs : m.tracer.roster.slot? i with _ | s
  · simp [lone, view, View.of, Roster.stackOf_of_slot?_eq_none hs]
  · obtain ⟨c, hc⟩ := h.orderly.sound.stack?_of_slot? hs
    have hmem : s ∈ m.tracer.roster.slots := List.mem_map.mpr ⟨_, Roster.mem_of_slot? hs, rfl⟩
    rw [stack_lone hs hc]
    simp [hmem]

/-- What is done from outside is done to a thread on its own in the same way. -/
theorem step_control (hx : x.isReset = false) (hmover : x.mover? = none) (i : Nat) :
    (m.step x).lone i = (m.lone i).step x := by
  have hview := view_step_of_ne h.orderly (i := i) x hx (by rw [hmover]; exact nofun)
  have hstack := congrArg View.stack hview
  have hrecords := congrArg View.records hview
  cases x with
  | suspend =>
    by_cases hs : (m.lone i).suspended = true
    · rcases m.suspend_cases with heq | ⟨hnot, -⟩
      · rw [Machine.step, heq, Lone.step, if_pos hs]
      · rw [lone, hnot] at hs
        cases hs
    · rcases m.suspend_cases with heq | ⟨-, heq⟩
      · have hcounted := suspensions_suspend (m := m) (by simpa [lone] using hs)
        rw [heq] at hcounted
        omega
      · rw [Machine.step, heq] at hview ⊢
        rw [lone_control hview (Suspension.bumpAll_eq ..) rfl, h.held_suspend, Lone.step, if_neg hs]
        rfl
  | resume =>
    by_cases hs : (m.lone i).suspended = true
    · rcases m.resume_cases with heq | ⟨-, heq⟩
      · have hresumed := suspended_resume (m := m) hs
        rw [heq] at hresumed
        exact absurd hresumed (by simpa [lone] using hs)
      · rw [Machine.step, heq] at hview ⊢
        have hfree : (m.tracer.roster.slot? i).any (· ∈ ([] : List Slot)) = false := by
          cases m.tracer.roster.slot? i <;> rfl
        rw [lone_control hview (Suspension.releaseAll_eq ..) rfl, hfree, Lone.step, if_pos hs]
        rfl
    · rcases m.resume_cases with heq | ⟨hsuspended, -⟩
      · rw [Machine.step, heq, Lone.step, if_neg hs]
      · exact absurd hsuspended hs
  | reset l => cases hx
  | exclude j =>
    by_cases hj : j = i
    · subst hj
      rw [Lone.step, if_pos (by rfl), Machine.step, lone_exclude]
    · rw [Lone.step, if_neg (by exact hj)]
      refine lone_congr rfl rfl rfl rfl rfl ?_ ?_ rfl hstack hrecords
      · show i ∈ (m.tracer.roster.exclude j).1.excluded ↔ _
        unfold Roster.exclude
        dsimp only
        split
        · exact Iff.rfl
        · simp [Ne.symm hj]
      · exact Function.update_of_ne (Ne.symm hj) ..
  | look j =>
    by_cases hj : j = i
    · subst hj
      rcases hc : m.tracer.roster.consult j (m.memory j) with ⟨st, memory⟩
      obtain ⟨hconsult, hknown⟩ := h.orderly.consult_lone hc
      rw [Machine.step, lone_remember, m.tracer.look_memory, hc, hknown, Lone.step, if_pos (by rfl),
        hconsult]
    · rw [Lone.step, if_neg (by exact hj)]
      exact lone_congr rfl rfl rfl rfl rfl Iff.rfl (Function.update_of_ne (Ne.symm hj) ..) rfl hstack
        hrecords
  | elsewhere j r =>
    by_cases hj : j = i
    · subst hj
      by_cases hr : r.roster = m.tracer.roster.id
      · rw [Machine.step, if_pos hr, Lone.step, if_neg (fun h => h.2 hr)]
      · have hother : m.tracer.roster.recollect (some r) = none := by simp [Roster.recollect, hr]
        rw [Machine.step, if_neg hr, Lone.step, if_pos ⟨rfl, hr⟩, lone_remember, hother]
        rfl
    · rw [Lone.step, if_neg (fun h => hj h.1), Machine.step]
      split
      · rfl
      · exact lone_congr rfl rfl rfl rfl rfl Iff.rfl (Function.update_of_ne (Ne.symm hj) ..) rfl rfl rfl
  | drain | notify | receive => exact lone_congr rfl rfl rfl rfl rfl Iff.rfl rfl rfl hstack hrecords
  | call | advance => cases hmover

/-- Whatever happens, every thread fares as it would on its own. -/
theorem lone_step (hx : x.isReset = false) (i : Nat)
    (hd : x.mover? = some i → (m.step x).tracer.queue.dropped = m.tracer.queue.dropped) :
    (m.step x).lone i = (m.lone i).step x ∧
      (x.mover? = some i → m.outcome x = (m.lone i).outcome x) := by
  rcases hmover : x.mover? with _ | j
  · exact ⟨h.step_control hx hmover i, nofun⟩
  by_cases hj : i = j
  · subst hj
    have hown := hd hmover
    cases x with
    | call who c counted =>
      cases hmover
      exact (h.call_self who c counted).imp id fun houtcome _ => houtcome
    | advance who =>
      cases hmover
      exact (h.advance_self who hown).imp id fun houtcome _ => houtcome
    | _ => cases hmover
  · have hother : x.concerns (m.lone i).thread = false := by
      cases x with
      | call who | advance who => cases hmover; exact decide_eq_false (Ne.symm hj)
      | _ => cases hmover
    rw [h.step_of_ne hmover hj, Lone.step_of_not_concerns hother]
    exact ⟨rfl, fun heq => absurd (Option.some.inj heq).symm hj⟩

end Roomy

/-! ### Runs -/

/-- What a thread sees of its stack, but for its number. -/
def snapshot (m : Machine) (i : Nat) : Option CallStack :=
  (m.tracer.look i (m.memory i)).1.map CallStack.unnumbered

/-- The records of a thread but for their times and its number. -/
def lines (m : Machine) (i : Nat) : List Record :=
  (m.recordsOf i).map fun r => r.timeless.unnumbered

/-- What a thread gets to know from its hooks: what comes of each of its moves, and the stack that it
sees then. -/
def learned (m : Machine) (i : Nat) : List Move → List (Outcome × Option CallStack)
  | [] => []
  | x :: xs =>
    (if x.mover? = some i then [(m.outcome x, (m.step x).snapshot i)] else []) ++
      (m.step x).learned i xs

theorem lines_eq (m : Machine) (i : Nat) : m.lines i = (m.lone i).records := by
  rw [lone, view, View.of, List.map_map]
  rfl

theorem Roomy.run (h : Roomy crew limit m) {xs : List Move} (hx : ∀ x ∈ xs, x.isReset = false)
    (hcall : ∀ x ∈ xs, ∀ j ∈ x.caller?, j ∈ crew) : Roomy crew limit (m.run xs) := by
  induction xs generalizing m with
  | nil => exact h
  | cons x xs ih =>
    obtain ⟨hx0, hx⟩ := List.forall_mem_cons.mp hx
    obtain ⟨hcall0, hcall⟩ := List.forall_mem_cons.mp hcall
    exact ih (h.step hx0 hcall0) hx hcall

/-- A run is to each thread what it would be on its own. -/
theorem Roomy.lone_run (h : Roomy crew limit m) {xs : List Move} (hx : ∀ x ∈ xs, x.isReset = false)
    (hcall : ∀ x ∈ xs, ∀ j ∈ x.caller?, j ∈ crew) (hdropped : m.tracer.queue.dropped = 0)
    (hd : Along NoDrop m xs) (i : Nat) :
    (m.run xs).lone i = (m.lone i).run xs ∧ m.learned i xs = (m.lone i).learned xs := by
  induction xs generalizing m with
  | nil => exact ⟨rfl, rfl⟩
  | cons x xs ih =>
    obtain ⟨hx0, hx⟩ := List.forall_mem_cons.mp hx
    obtain ⟨hcall0, hcall⟩ := List.forall_mem_cons.mp hcall
    obtain ⟨hstep, houtcome⟩ := h.lone_step hx0 i fun _ => hd.1.trans hdropped.symm
    have hnext := h.step hx0 hcall0
    obtain ⟨hrun, hlearned⟩ := ih hnext hx hcall hd.1 hd.2
    refine ⟨by rw [run_cons, hrun, hstep]; rfl, ?_⟩
    have hsnapshot : (m.step x).snapshot i = ((m.lone i).step x).snapshot := by
      rw [snapshot, hnext.orderly.snapshot_lone, hstep]
    have hthread : (m.lone i).thread = i := rfl
    rw [learned, Lone.learned, hlearned, hstep, hthread, hsnapshot]
    split
    · rename_i hi
      rw [houtcome hi]
    · rfl

end Machine

end MethodTrace
