import MethodTrace.Proofs.Orderly
import MethodTrace.Proofs.Outcome
import MethodTrace.Proofs.View

/-!
# A run as one thread sees it

Every move of a run is a step of what a thread sees (`view_step`), whoever makes it: the moves of
other threads, of a collector and of whoever suspends and resumes leave the view as it is. So a
thread may count on `View.Told` all along a run without a reset (`told_run`).
-/

namespace MethodTrace

def Stage.footing (stage : Stage) (c : Call) : Footing :=
  match stage with
  | .called | .running _ => .pending c false false
  | .enrolled _ _ fresh => .pending c fresh false
  | .cleared _ _ fresh | .guarding _ _ fresh => .pending c fresh true
  | .expanding _ _ o => .telling c o
  | .closing _ | .returned _ => .idle

/-- Where a thread is with the outermost of its calls. -/
def footing (calls : List Activity) : Footing :=
  match calls.getLast? with
  | none => .idle
  | some a => a.stage.footing a.call

/-- The records with the number of a stack. -/
def recordsFor (s : Option CallStack) (history : List Record) : List Record :=
  match s with
  | none => []
  | some c => history.filter (·.thread = c.no.val)

def View.of (s : Option CallStack) (f : Footing) (history : List Record) (js : List (Bool × Call)) :
    View :=
  ⟨s.map (CallStack.withGuard 0), f, (recordsFor s history).map Record.timeless, js⟩

theorem recordsFor_congr {s s' : Option CallStack}
    (h : s'.map (CallStack.withGuard 0) = s.map (CallStack.withGuard 0)) (history : List Record) :
    recordsFor s' history = recordsFor s history := by
  cases s <;> cases s' <;> simp only [Option.map_some, Option.map_none, reduceCtorEq] at h
  · rfl
  · rename_i c c'
    have heq : c'.withGuard 0 = c.withGuard 0 := Option.some.inj h
    have hno : c'.no = c.no := by
      have := congrArg CallStack.no heq
      exact this
    simp only [recordsFor, hno]

theorem recordsFor_append (c : CallStack) (history rs : List Record) :
    recordsFor (some c) (history ++ rs) = recordsFor (some c) history ++ recordsFor (some c) rs :=
  List.filter_append ..

theorem recordsFor_eq_self {c : CallStack} {rs : List Record} (h : ∀ r ∈ rs, r.thread = c.no.val) :
    recordsFor (some c) rs = rs :=
  List.filter_eq_self.mpr fun r hr => decide_eq_true (h r hr)

theorem recordsFor_eq_nil {c : CallStack} {rs : List Record} (h : ∀ r ∈ rs, r.thread ≠ c.no.val) :
    recordsFor (some c) rs = [] :=
  List.filter_eq_nil_iff.mpr fun r hr => by simpa using h r hr

theorem footing_next (a : Activity) (stage : Stage) :
    footing (a.next stage) = stage.footing a.call := by
  cases stage <;> rfl

theorem footing_append_cons (calls rest : List Activity) (b : Activity) :
    footing (calls ++ b :: rest) = footing (b :: rest) := by
  simp [footing, List.getLast?_cons]

namespace Machine
variable {m : Machine} {limit : UInt32} {i : Nat} {x : Move} {lossless calm : Prop}

/-- The call stack of a thread, if it is registered. -/
def stackOf (m : Machine) (i : Nat) : Option CallStack := m.tracer.roster.stackOf i

/-- The records with a thread's number, over all drains. -/
def recordsOf (m : Machine) (i : Nat) : List Record := recordsFor (m.stackOf i) m.history

def view (m : Machine) (i : Nat) : View :=
  .of (m.tracer.roster.stackOf i) (footing (m.active i)) m.history (m.journal i)

/-- A view does not change if neither the thread's stack nor its records nor its calls do. -/
theorem view_eq {m' : Machine}
    (hs : (m'.tracer.roster.stackOf i).map (CallStack.withGuard 0) =
      (m.tracer.roster.stackOf i).map (CallStack.withGuard 0))
    (hf : footing (m'.active i) = footing (m.active i))
    (hh : recordsFor (m.tracer.roster.stackOf i) m'.history =
      recordsFor (m.tracer.roster.stackOf i) m.history)
    (hj : m'.journal i = m.journal i) : m'.view i = m.view i := by
  simp only [view, View.of, hs, hf, hj, recordsFor_congr hs, hh]

theorem view_put (m : Machine) (i : Nat) (a : Activity) (t : Tracer) (memory : Memory)
    (stage : Stage) (calls : List Activity) :
    (m.put i ⟨a.settle t stage, memory⟩ calls).view i =
      .of (t.roster.stackOf i) (footing calls) (m.past ++ t.queue.records.toList) (m.journal i) := by
  simp [view, put, history]

/-- A step of a thread's call changes the view of no other thread. -/
theorem view_advance_of_ne (h : m.Orderly limit) {who : OsThread} (hne : i ≠ who.id) :
    (m.advance who).view i = m.view i := by
  rcases hact : m.active who.id with _ | ⟨a, rest⟩
  · rw [advance_of_idle hact]
  have ha : a ∈ m.active who.id := by rw [hact]; exact List.mem_cons_self
  obtain ⟨l, stage, -, hturn, hm⟩ := h.advance_turn hact
  rw [hm]
  have hactive : ∀ l calls, footing ((m.put who.id l calls).active i) = footing (m.active i) :=
    fun l calls => by simp [put, hne]
  have hslot := h.slot who.id a ha
  generalize a.stage = st at hturn hslot
  cases hturn with
  | find => exact view_eq (by simp [put]) (hactive _ _) (by simp [put, history]) rfl
  | enlist hnone hq =>
    refine view_eq ?_ (hactive _ _) (by simp [put, history]) rfl
    simp only [put, Activity.settle_roster, h.sound.stackOf_enlist_of_ne hne]
  | @rework t t' memory st stage slot hst hst' hr =>
    have hwho := hslot slot hst
    obtain ⟨c₀, hc₀⟩ := h.sound.stack?_of_slot? hwho
    have hother : t'.roster.stackOf i = m.tracer.roster.stackOf i := by
      rw [Roster.stackOf, hr.slot? i, Roster.stackOf]
      rcases hs : m.tracer.roster.slot? i with _ | s
      · rfl
      · exact hr.others s fun heq => hne (h.sound.slot?_inj hs (heq ▸ hwho))
    refine view_eq ?_ (hactive _ _) ?_ rfl
    · simp only [put, Activity.settle_roster, hother]
    · obtain ⟨rs, hrs, hno⟩ := hr.records
      simp only [put, history, Activity.settle_queue, hrs]
      rcases hs : m.tracer.roster.stackOf i with _ | c
      · rfl
      · obtain ⟨s, hs, hc⟩ := Roster.Sound.slot?_of_stackOf hs
        have hnil : recordsFor (some c) rs = [] := recordsFor_eq_nil fun r hrm heq => by
          rw [hno r hrm c₀ hc₀] at heq
          have : slot = s := h.sound.slot_eq_of_no hc₀ hc (congrArg ThreadNo.mk heq)
          exact hne (h.sound.slot?_inj hs (this ▸ hwho))
        rw [← List.append_assoc, recordsFor_append, hnil, List.append_nil]

/-- The thread is not denied, by its memory or by the roster. -/
structure Invited (m : Machine) (i : Nat) : Prop where
  undenied : m.tracer.roster.recollect (m.memory i) ≠ some .denied
  included : i ∉ m.tracer.roster.excluded

/-- A call that has begun while tracing was running is not refused later, whether for want of a slot
or because a suspension has taken the guard. Calls within the telling of another one are refused. -/
def Granted (i : Nat) (m : Machine) : Move → Prop
  | .advance who =>
    who.id = i → (m.active i).length = 1 → (m.outcome (.advance who)).isRefusal = false
  | _ => True

instance Granted.decidable (i : Nat) (m : Machine) : (x : Move) → Decidable (Granted i m x)
  | .advance _ => inferInstanceAs (Decidable (_ → _ → _))
  | .call .. | .suspend | .resume | .reset _ | .drain | .notify | .receive | .exclude _ | .look _
  | .elsewhere .. => isTrue trivial

theorem Granted.stage_ne {who : OsThread} {a : Activity} {stage : Stage}
    (h : Granted who.id m (.advance who)) (hact : m.active who.id = [a])
    (houtcome : m.outcome (.advance who) = stage.outcome a.call) (e : HookError) :
    stage ≠ .returned (.error e) := by
  intro heq
  have hnot := h rfl (by rw [hact]; rfl)
  rw [houtcome, heq] at hnot
  cases hnot

/-- Nothing shuts the thread out: it is neither suspended on the way to its stack nor denied. -/
structure Welcome (m : Machine) (i : Nat) : Prop where
  quiet : (footing (m.active i)).isPending = true → m.tracer.suspension.suspended = false
  undenied : m.tracer.roster.recollect (m.memory i) ≠ some .denied
  included : i ∉ m.tracer.roster.excluded

/-- A move that shuts the thread out neither now nor later: no suspension while it is open if a call
of the thread will have an effect, no exclusion, and room for the thread if it is not registered. -/
structure Spares (m : Machine) (i : Nat) (x : Move) : Prop where
  suspend : x.isSuspend = true → (footing (m.active i)).isPending = false
  exclude : x.excluded? ≠ some i
  room : m.tracer.roster.slot? i = none → m.tracer.quota.remaining ≠ 0

namespace Invited

theorem consult_ne_denied (h : m.Invited i) {memory : Memory} :
    m.tracer.roster.consult i (m.memory i) ≠ (.denied, memory) := by
  intro hc
  unfold Roster.consult at hc
  split at hc
  · rename_i st hst
    cases hc
    exact h.undenied hst
  · have := congrArg Prod.fst hc
    exact Roster.lookup_ne_denied h.included this

theorem register_slot_ne_none {who : OsThread} (h : m.Invited who.id)
    (hroom : m.tracer.roster.slot? who.id = none → m.tracer.quota.remaining ≠ 0) (memory : Memory) :
    (m.tracer.roster.register who m.tracer.quota memory).slot ≠ none := by
  intro hn
  rcases hs : m.tracer.roster.slot? who.id with _ | s
  · exact (Roster.register_of_slot_eq_none hs hn).1.elim (hroom hs) h.included
  · rw [Roster.register_slot_of_slot? hs] at hn
    cases hn

end Invited

/-- What the queue must do for a thread: not keep its calls out, and drop nothing. -/
structure Admits (m : Machine) (i : Nat) (m' : Machine) : Prop where
  keepsOut : ∀ a ∈ m.active i, ∀ e, a.stage.epoch? = some e → m.tracer.queue.keepsOut e = false
  dropped : m'.tracer.queue.dropped = m.tracer.queue.dropped

section own
variable {who : OsThread} {c : Call} {counted : Bool} {st stage : Stage}

theorem view_of_active (hact : m.active i = [⟨c, counted, st⟩]) :
    m.view i = ⟨(m.tracer.roster.stackOf i).map (CallStack.withGuard 0), st.footing c,
      (recordsFor (m.tracer.roster.stackOf i) m.history).map Record.timeless, m.journal i⟩ := by
  simp [view, View.of, hact, footing]

/-- The view after a step in which a call has only found out something. -/
theorem view_found (m : Machine) (i : Nat) (a : Activity) (memory : Memory) (stage : Stage) :
    (m.put i ⟨a.settle m.tracer stage, memory⟩ (a.next stage)).view i =
      ⟨(m.tracer.roster.stackOf i).map (CallStack.withGuard 0), stage.footing a.call,
        (recordsFor (m.tracer.roster.stackOf i) m.history).map Record.timeless, m.journal i⟩ := by
  rw [view_put, View.of, footing_next]
  rfl

/-- The view after a step that has changed the stack, and written something for it. -/
theorem view_touched (a : Activity) (memory : Memory) (stage : Stage) {t : Tracer} {slot : Slot}
    {d : Int} (hi : m.tracer.roster.slot? i = some slot) (hr : m.tracer.Reworks slot d t)
    {s s' : CallStack} (hs : m.tracer.roster.stack? slot = some s)
    (hs' : t.roster.stack? slot = some s') :
    ∃ new, t.written = m.tracer.written ++ new ∧
      (m.put i ⟨a.settle t stage, memory⟩ (a.next stage)).view i =
        ⟨some (s'.withGuard 0), stage.footing a.call,
          (recordsFor (m.tracer.roster.stackOf i) m.history).map Record.timeless ++ new,
          m.journal i⟩ := by
  obtain ⟨rs, hrs, hno⟩ := hr.records
  refine ⟨rs.map Record.timeless, by rw [Tracer.written, hrs, List.map_append]; rfl, ?_⟩
  have hstack : m.tracer.roster.stackOf i = some s := by rw [Roster.stackOf_of_slot? hi, hs]
  have hstack' : t.roster.stackOf i = some s' := by
    rw [Roster.stackOf_of_slot? ((hr.slot? i).trans hi), hs']
  obtain ⟨s'', hs'', hno', -⟩ := hr.own s hs
  have heq : s'.no = s.no := by rw [← hno', Option.some.inj (hs'.symm.trans hs'')]
  have hself : recordsFor (some s') rs = rs := recordsFor_eq_self fun r hr => by
    rw [heq]; exact hno r hr s hs
  have hrecords : recordsFor (some s') (m.past ++ t.queue.records.toList) =
      recordsFor (some s) m.history ++ rs := by
    rw [hrs, ← List.append_assoc, recordsFor_append, hself]
    simp only [recordsFor, heq, history]
  rw [view_put, View.of, footing_next, hstack', hstack, hrecords, List.map_append]
  rfl

/-- The view after a step in which a call has taken or dropped the guard. -/
theorem view_guarded (a : Activity) (memory : Memory) (stage : Stage) {slot : Slot} {s : CallStack}
    (hi : m.tracer.roster.slot? i = some slot) (hs : m.tracer.roster.stack? slot = some s)
    {f : CallStack → CallStack} (hf : (f s).withGuard 0 = s.withGuard 0) :
    (m.put i ⟨a.settle (m.tracer.modifyStack slot f) stage, memory⟩ (a.next stage)).view i =
      ⟨(m.tracer.roster.stackOf i).map (CallStack.withGuard 0), stage.footing a.call,
        (recordsFor (m.tracer.roster.stackOf i) m.history).map Record.timeless, m.journal i⟩ := by
  have hstack : m.tracer.roster.stackOf i = some s := by rw [Roster.stackOf_of_slot? hi, hs]
  have hstack' : (m.tracer.modifyStack slot f).roster.stackOf i = some (f s) := by
    rw [Roster.stackOf_of_slot? (r := (m.tracer.modifyStack slot f).roster) hi]
    simp [Tracer.modifyStack, Roster.stack?_modify_self, hs]
  rw [view_put, View.of, footing_next, hstack', hstack, recordsFor_congr (s := some s) (by simp [hf]),
    Option.map_some, hf]
  rfl

section stages
variable {epoch : UInt64} {slot : Slot} {fresh : Bool}

theorem slot?_of_active (h : m.Orderly limit) (hact : m.active i = [⟨c, counted, st⟩])
    (hst : st.slot? = some slot) : m.tracer.roster.slot? i = some slot :=
  h.slot i ⟨c, counted, st⟩ (by rw [hact]; exact List.mem_cons_self) slot hst

/-- The next number is on no record yet. -/
theorem Orderly.recordsFor_new (h : m.Orderly limit) {q : Quota} (hq : m.tracer.quota.take = some q)
    (name : Option String) :
    recordsFor (some (.new ⟨m.tracer.roster.nextNo⟩ name)) m.history = [] :=
  recordsFor_eq_nil fun r hr heq => by
    have hle := h.known r hr
    rw [heq] at hle
    simp only [CallStack.new, h.sound.toNat_nextNo hq] at hle
    exact Nat.not_succ_le_self _ hle

/-- A thread that is registered sees a new stack, and no records since its number is new. -/
theorem view_enlist (h : m.Orderly limit) (hact : m.active who.id = [⟨c, counted, .running epoch⟩])
    {memory : Memory}
    (hcons : m.tracer.roster.consult who.id (m.memory who.id) = (.unregistered, memory))
    (hr : (m.tracer.roster.register who m.tracer.quota memory).slot = some slot) :
    let r := m.tracer.roster.register who m.tracer.quota memory
    m.view who.id = ⟨none, .pending c false false, [], m.journal who.id⟩ ∧
      (m.put who.id
        ⟨(Activity.mk c counted (.running epoch)).settle
            { m.tracer with roster := r.roster, quota := r.quota } (.enrolled epoch slot true),
          r.memory⟩
        ((Activity.mk c counted (.running epoch)).next (.enrolled epoch slot true))).view who.id =
        ⟨some (.new ⟨m.tracer.roster.nextNo⟩ who.name), .pending c true false, [],
          m.journal who.id⟩ := by
  intro r
  have hnone := (h.recalls who.id).slot?_of_unregistered hcons
  obtain ⟨rfl, -, q, hq, heq⟩ := Roster.register_of_slot_eq_some hnone hr
  have hnil := h.recordsFor_new hq who.name
  have hr : r = ⟨m.tracer.roster.enlist who, q, m.tracer.roster.memoryOf
    (.registered m.tracer.roster.callStacks.size), some m.tracer.roster.callStacks.size⟩ := heq
  rw [view_of_active hact, view_put, hr, View.of, footing_next, Roster.stackOf_enlist_self hnone,
    Roster.stackOf_of_slot?_eq_none hnone, ← history, hnil]
  exact ⟨rfl, rfl⟩

theorem view_register (h : m.Orderly limit) (hact : m.active who.id = [⟨c, counted, .running epoch⟩])
    {memory : Memory}
    (hcons : m.tracer.roster.consult who.id (m.memory who.id) = (.unregistered, memory))
    (henrolls : c.hook.enrolls = true)
    (hr : (m.tracer.roster.register who m.tracer.quota memory).slot = some slot) :
    let r := m.tracer.roster.register who m.tracer.quota memory
    View.Goes m.tracer.scribe lossless calm (m.view who.id) ((m.put who.id
      ⟨(Activity.mk c counted (.running epoch)).settle
          { m.tracer with roster := r.roster, quota := r.quota } (.enrolled epoch slot true), r.memory⟩
      ((Activity.mk c counted (.running epoch)).next (.enrolled epoch slot true))).view who.id) := by
  intro r
  obtain ⟨hv, hv'⟩ := view_enlist h hact hcons hr
  rw [hv, hv']
  exact .register ⟨m.tracer.roster.nextNo⟩ who.name _ _ henrolls

/-- The view after a call has acted, or paused on the way. -/
theorem view_act (h : m.Orderly limit)
    (hact : m.active who.id = [⟨c, counted, .guarding epoch slot fresh⟩])
    (hkeeps : lossless → m.tracer.queue.keepsOut epoch = false)
    (hdropped : lossless →
      (c.act m.tracer epoch slot fresh).1.queue.dropped = m.tracer.queue.dropped) :
    let a : Activity := ⟨c, counted, .guarding epoch slot fresh⟩
    View.Goes m.tracer.scribe lossless calm (m.view who.id) ((m.put who.id
      ⟨a.settle (c.act m.tracer epoch slot fresh).1 (c.act m.tracer epoch slot fresh).2,
        m.memory who.id⟩
      (a.next (c.act m.tracer epoch slot fresh).2)).view who.id) := by
  intro a
  have hslot := slot?_of_active h hact rfl
  obtain ⟨s, hs⟩ := h.sound.stack?_of_slot? hslot
  have hr : m.tracer.Reworks slot 0 (c.act m.tracer epoch slot fresh).1 := Call.act_touches.reworks
  have hdeed := c.deed_withGuard (m.tracer.scribe s.no) s 0
  rw [view_of_active hact, Roster.stackOf_of_slot? hslot, hs]
  rcases c.act_cases epoch fresh hs with
    ⟨hstage, hs', hwritten⟩ | ⟨o, hstage, ho, hs', hwritten⟩
  · obtain ⟨new, hnew, hview⟩ := view_touched a (m.memory who.id)
      (c.act m.tracer epoch slot fresh).2 hslot hr hs hs'
    have hwrites : lossless → new = c.greeting (m.tracer.scribe s.no) fresh ++
        (c.deed (m.tracer.scribe s.no) (s.withGuard 0)).2 := fun hlossless => by
      have hw := hwritten (hkeeps hlossless) (hdropped hlossless)
      rw [hnew, List.append_assoc] at hw
      rw [List.append_cancel_left hw, hdeed]
    have hstack : (c.deed (m.tracer.scribe s.no) s).1.withGuard 0 =
        (c.deed (m.tracer.scribe s.no) (s.withGuard 0)).1 := by rw [hdeed]
    rw [hview, hstage, Roster.stackOf_of_slot? hslot, hs, hstack]
    exact .act _ _ hwrites
  · obtain ⟨new, hnew, hview⟩ := view_touched a (m.memory who.id)
      (c.act m.tracer epoch slot fresh).2 hslot hr hs hs'
    have hwrites : lossless → new = c.greeting (m.tracer.scribe s.no) fresh := fun hlossless => by
      have hw := hwritten (hkeeps hlossless)
      rw [hnew] at hw
      exact List.append_cancel_left hw
    rw [hview, hstage, Roster.stackOf_of_slot? hslot, hs, ← Opening.prepare_withGuard]
    exact .pause _ _ ho hwrites

/-- The view after the frame has been pushed whose first invocation was told. -/
theorem view_tell (h : m.Orderly limit) {o : Opening}
    (hact : m.active who.id = [⟨c, counted, .expanding epoch slot o⟩])
    (hkeeps : lossless → m.tracer.queue.keepsOut epoch = false)
    (hdropped : lossless →
      (c.enter m.tracer epoch slot o).queue.dropped = m.tracer.queue.dropped) :
    let a : Activity := ⟨c, counted, .expanding epoch slot o⟩
    View.Goes m.tracer.scribe lossless calm (m.view who.id) ((m.put who.id
      ⟨a.settle (c.enter m.tracer epoch slot o) (.closing slot), m.memory who.id⟩
      (a.next (.closing slot))).view who.id) := by
  intro a
  have hslot := slot?_of_active h hact rfl
  obtain ⟨s, hs⟩ := h.sound.stack?_of_slot? hslot
  obtain ⟨new, hnew, hview⟩ := view_touched a (m.memory who.id) (.closing slot) hslot
    (Call.enter_touches (c := c) epoch o).reworks hs (Call.enter_stack hs)
  have hwrites : lossless → new = (m.tracer.scribe s.no).frame (o.push s).depth.toNat o.kind
      c.method none := fun hlossless => by
    have hw := Call.enter_written hs (hkeeps hlossless) (hdropped hlossless)
    rw [hnew] at hw
    exact List.append_cancel_left hw
  rw [view_of_active hact, hview, Roster.stackOf_of_slot? hslot, hs, ← Opening.push_withGuard]
  exact .tell _ _ (by rw [Opening.push_withGuard]; exact hwrites)

end stages

theorem view_advance_outermost (h : m.Orderly limit) (hact : m.active who.id = [⟨c, counted, st⟩])
    {l : Local} (hgoes : c.Goes who ⟨m.tracer, m.memory who.id⟩ st l stage)
    (hl : lossless → m.Admits who.id (m.put who.id
      ⟨(Activity.mk c counted st).settle l.tracer stage, l.memory⟩
      ((Activity.mk c counted st).next stage))) (hc : calm → m.Invited who.id)
    (hg : calm → ∀ e, stage ≠ .returned (.error e)) :
    View.Goes m.tracer.scribe lossless calm (m.view who.id) ((m.put who.id
      ⟨(Activity.mk c counted st).settle l.tracer stage, l.memory⟩
      ((Activity.mk c counted st).next stage)).view who.id) := by
  have hslot : ∀ s, st.slot? = some s → m.tracer.roster.slot? who.id = some s :=
    h.slot who.id ⟨c, counted, st⟩ (by rw [hact]; exact List.mem_cons_self)
  rw [view_of_active hact]
  cases hgoes with
  | suspended hnone =>
    rw [view_found]
    exact .giveUp _ _ _ fun hcalm => hg hcalm _ rfl
  | start => rw [view_found]; exact .stay _
  | find => rw [view_found]; exact .stay _
  | denied hdenied =>
    rw [view_found]
    exact .giveUp _ _ _ fun hcalm => (hc hcalm).consult_ne_denied hdenied
  | stranger hcons hnot =>
    have hnone := (h.recalls who.id).slot?_of_unregistered hcons
    rw [view_found, Roster.stackOf_of_slot?_eq_none hnone]
    exact .strange _ _ hnot
  | register hcons henrolls hr =>
    rw [← view_of_active hact]
    exact view_register h hact hcons henrolls hr
  | refuse hcons henrolls hr =>
    have hnone := (h.recalls who.id).slot?_of_unregistered hcons
    rw [(Roster.register_of_slot_eq_none hnone hr).2, view_found]
    exact .giveUp _ _ _ fun hcalm => hg hcalm _ rfl
  | lost hnone =>
    obtain ⟨s, hs⟩ := h.sound.stack?_of_slot? (hslot _ rfl)
    rw [hnone] at hs
    cases hs
  | skip hs hnot =>
    rw [view_found, Roster.stackOf_of_slot? (hslot _ rfl), hs]
    exact .skip _ _ hnot
  | clear hs hcon =>
    rw [view_found, Roster.stackOf_of_slot? (hslot _ rfl), hs]
    exact .clear _ _ hcon
  | guarded =>
    rw [view_found]
    exact .giveUp _ _ _ fun hcalm => hg hcalm _ rfl
  | guard hs =>
    rw [view_guarded _ _ _ (hslot _ rfl) hs rfl]
    exact .stay _
  | @act t memory epoch slot fresh =>
    rw [← view_of_active hact]
    exact view_act h hact
      (fun hlossless => (hl hlossless).keepsOut _ (by rw [hact]; exact List.mem_cons_self) epoch rfl)
      fun hlossless => by simpa [put] using (hl hlossless).dropped
  | @tell t memory epoch slot o =>
    rw [← view_of_active hact]
    exact view_tell h hact
      (fun hlossless => (hl hlossless).keepsOut _ (by rw [hact]; exact List.mem_cons_self) epoch rfl)
      fun hlossless => by simpa [put] using (hl hlossless).dropped
  | close =>
    obtain ⟨s, hs⟩ := h.sound.stack?_of_slot? (hslot _ rfl)
    rw [view_guarded _ _ _ (hslot _ rfl) hs rfl]
    exact .stay _
  | ended =>
    have := (h.stacked who.id).isOver_eq_false (a := ⟨c, counted, .returned _⟩)
      (by rw [hact]; exact List.mem_cons_self)
    cases this

end own

theorem view_advance_self (h : m.Orderly limit) (who : OsThread)
    (hl : lossless → m.Admits who.id (m.advance who)) (hc : calm → m.Invited who.id)
    (hg : calm → Granted who.id m (.advance who)) :
    View.Goes m.tracer.scribe lossless calm (m.view who.id) ((m.advance who).view who.id) := by
  rcases hact : m.active who.id with _ | ⟨a, rest⟩
  · rw [advance_of_idle hact]
    exact .stay _
  obtain ⟨l, stage, hgoes, hm, houtcome⟩ := advance_outcome hact
  have hturn := hgoes.turn
    ((h.stacked who.id).isOver_eq_false (by rw [hact]; exact List.mem_cons_self)) (h.recalls who.id)
  rw [Machine.step] at hm
  rw [hm] at hl ⊢
  rcases rest with _ | ⟨b, rest⟩
  · rw [List.append_nil] at hl ⊢
    exact view_advance_outermost h hact hgoes hl hc fun hcalm => (hg hcalm).stage_ne hact houtcome
  -- a call within the telling of another one finds something out, and no more
  have hrest : rest = [] := by
    have := h.stacked who.id
    rw [hact] at this
    cases this
    rfl
  subst hrest
  have hview : (m.put who.id ⟨a.settle l.tracer stage, l.memory⟩ (a.next stage ++ [b])).view who.id =
      m.view who.id := by
    generalize hst : a.stage = st at hturn
    cases hturn with
    | find => rw [view_put, footing_append_cons, View.of, view, View.of, hact]; rfl
    | enlist hnone hq => cases h.rest_eq_nil_of_unregistered hact hnone
    | rework hslot hslot' hr hs hs' =>
      subst hst
      cases h.rest_eq_nil_of_guards hact hslot hs
  rw [hview]
  exact .stay _

/-- A call looks first whether tracing is suspended. -/
theorem call_eq_put {who : OsThread} (hr : m.ready who.id = true) (c : Call) (counted : Bool) :
    ∃ stage, m.call who c counted = (m.note who.id c).put who.id
        ⟨(Activity.mk c counted .called).settle m.tracer stage, m.memory who.id⟩
        ((Activity.mk c counted .called).next stage ++ m.active who.id) ∧
      (m.tracer.suspension.suspended = true ∧ stage = .returned (.error .suspended) ∨
        m.tracer.suspension.suspended = false ∧ ∃ epoch, stage = .running epoch) := by
  obtain ⟨l, stage, hgoes, hm⟩ :=
    (m.note who.id c).proceed_goes who ⟨c, counted, .called⟩ (m.active who.id)
  rw [note_tracer, note_memory] at hgoes
  refine ⟨stage, ?_, ?_⟩
  · rw [Machine.call, if_pos hr, hm]
    cases hgoes <;> rfl
  · cases hgoes with
    | suspended hnone =>
      cases hs : m.tracer.suspension.suspended with
      | true => exact .inl ⟨rfl, rfl⟩
      | false => simp [Suspension.openEpoch, hs] at hnone
    | @start l epoch hsome =>
      cases hs : m.tracer.suspension.suspended with
      | true => simp [Suspension.openEpoch, hs] at hsome
      | false => exact .inr ⟨rfl, epoch, rfl⟩

theorem view_call_self (m : Machine) (who : OsThread) (c : Call) (counted : Bool)
    (w : ThreadNo → Scribe) :
    View.Goes w lossless calm (m.view who.id) ((m.call who c counted).view who.id) := by
  by_cases hr : m.ready who.id = true
  swap
  · rw [Machine.call, if_neg hr]
    exact .stay _
  obtain ⟨stage, hcall, hstage⟩ := call_eq_put hr c counted
  rw [hcall]
  rcases hact : m.active who.id with _ | ⟨b, rest⟩
  · have hnote : m.note who.id c =
        { m with
          journal := Function.update m.journal who.id
            (m.journal who.id ++ [(m.tracer.suspension.suspended, c)]) } := by
      rw [note, hact]
      rfl
    rw [List.append_nil, view_put, footing_next, hnote, view, hact, View.of, View.of]
    rcases hstage with ⟨hs, rfl⟩ | ⟨hs, epoch, rfl⟩
    · simp only [hs, Function.update_self]
      exact .miss ..
    · simp only [hs, Function.update_self]
      exact .start ..
  · have hnote : m.note who.id c = m := by
      rw [note, hact]
      rfl
    rw [view_put, footing_append_cons, hnote, view, hact]
    exact .stay _

theorem view_call_of_ne {who : OsThread} (hne : i ≠ who.id) (c : Call) (counted : Bool) :
    (m.call who c counted).view i = m.view i := by
  by_cases hr : m.ready who.id = true
  swap
  · rw [Machine.call, if_neg hr]
  obtain ⟨stage, hcall, -⟩ := call_eq_put hr c counted
  rw [hcall]
  refine view_eq (by simp [put]) (by simp [put, hne]) (by simp [put, history]) ?_
  change (m.note who.id c).journal i = _
  unfold note
  split
  · simp [hne]
  · rfl

/-! ### Whole runs -/

theorem view_control {t : Tracer} {l : List Slot} {f : CallStack → CallStack} (h : m.Orderly limit)
    (hl : l.Nodup) (hf : ∀ c, (f c).withGuard 0 = c.withGuard 0)
    (hr : t.roster = l.foldl (fun r s => r.modify s f) m.tracer.roster) {marker : Record}
    (hmarker : marker.thread = 0)
    (hrec : t.queue.records.toList = m.tracer.queue.records.toList ∨
      t.queue.records.toList = m.tracer.queue.records.toList ++ [marker]) (n : Nat) (i : Nat) :
    { m with tracer := t, suspensions := n }.view i = m.view i := by
  have hroster := Suspension.foldl_modify_eq f l m.tracer.roster
  obtain ⟨-, hstack⟩ := Suspension.foldl_modify (f := f) hl m.tracer.roster
  rw [← hr] at hroster hstack
  have hslot : t.roster.slot? i = m.tracer.roster.slot? i := by rw [hroster]; rfl
  refine view_eq ?_ rfl ?_ rfl
  · simp only [Roster.stackOf, hslot]
    rcases m.tracer.roster.slot? i with _ | s
    · rfl
    · simp only [Option.bind_some, hstack]
      split
      · rw [Option.map_map]
        congr 1
        funext c
        exact hf c
      · rfl
  · rcases hs : m.tracer.roster.stackOf i with _ | c
    · rfl
    · rcases hrec with hrec | hrec
      · simp only [history, hrec]
      · obtain ⟨s, -, hc⟩ := Roster.Sound.slot?_of_stackOf hs
        have hnil : recordsFor (some c) [marker] = [] := recordsFor_eq_nil fun r hr heq => by
          have := h.sound.number s c hc
          rw [List.mem_singleton.mp hr, hmarker] at heq
          rw [← heq] at this
          cases this
        simp only [history, hrec]
        rw [← List.append_assoc, recordsFor_append, hnil, List.append_nil]

theorem view_suspendSlots (h : m.Orderly limit) {slots : List Slot} (hnodup : slots.Nodup)
    (i : Nat) : (m.suspendSlots slots).view i = m.view i := by
  rcases m.suspendSlots_cases slots with heq | ⟨-, heq⟩ <;> rw [heq]
  exact view_control (f := CallStack.bump) h hnodup (fun _ => rfl) (by rfl) rfl
    (Queue.close_records ..) _ i

/-- A thread sees nothing of what others do, nor of suspending and resuming. -/
theorem view_step_of_ne (h : m.Orderly limit) (x : Move) (hx : x.isReset = false)
    (hi : x.mover? ≠ some i) : (m.step x).view i = m.view i := by
  cases x with
  | call who c counted => exact view_call_of_ne (fun heq => hi (by rw [heq]; rfl)) c counted
  | advance who => exact view_advance_of_ne h fun heq => hi (by rw [heq]; rfl)
  | suspend => exact view_suspendSlots h h.slots_lt.1 i
  | resume =>
    rcases m.resume_cases with heq | ⟨-, heq⟩ <;> simp only [Machine.step, heq]
    refine view_control (f := CallStack.release) h h.held (fun c => ?_) (by rfl) rfl
      (Queue.reopen_records ..) m.suspensions i
    unfold CallStack.release
    split <;> rfl
  | reset l => cases hx
  | drain => exact view_eq rfl rfl (by simp [Machine.step, drain, history, Tracer.drain, Queue.drain]) rfl
  | notify => exact view_eq rfl rfl (by simp [Machine.step, history, Tracer.notify]) rfl
  | elsewhere j r =>
    simp only [Machine.step]
    split
    · rfl
    · exact view_eq rfl rfl rfl rfl
  | receive | exclude | look => exact view_eq rfl rfl rfl rfl

/-- Every move of a run is a step of what thread `i` sees. -/
theorem view_step (h : m.Orderly limit) (x : Move) (hx : x.isReset = false) (i : Nat)
    (hl : lossless → m.Admits i (m.step x)) (hc : calm → m.Invited i ∧ Granted i m x) :
    View.Goes m.tracer.scribe lossless calm (m.view i) ((m.step x).view i) := by
  by_cases hi : x.mover? = some i
  swap
  · rw [view_step_of_ne h x hx hi]
    exact .stay _
  cases x with
  | call who c counted => cases hi; exact view_call_self m who c counted _
  | advance who =>
    cases hi
    exact view_advance_self h who hl (fun h => (hc h).1) fun h => (hc h).2
  | _ => cases hi

end Machine

end MethodTrace
