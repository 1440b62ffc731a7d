import MethodTrace.Proofs.Herald

/-!
# Hooks in a race with a suspension

A hook looks first whether tracing is suspended, and takes the guard of its thread's stack some steps
later. Who suspends reads the slots first, and takes the guards of their stacks some moves later. So a
suspension may hold the very guard that a hook is about to take. Then the hook is refused, although it
has passed its checks, and if it was the one that registered its thread, nobody announces that
(`hooks_race_with_suspensions`). A hook that holds the guard always comes to its end.
-/

namespace MethodTrace

deriving instance DecidableEq for Stage, Activity

/-- A tracer, and the slots that have been read for suspensions to come. -/
structure Race where
  machine : Machine
  readings : List (List Slot)

inductive RaceMove where
  | move (x : Move)
  /-- Somebody who is about to suspend reads the slots. -/
  | read
  /-- The suspension for which the slots have been read takes place. -/
  | suspend (reading : Nat)

def RaceMove.isReset : RaceMove → Bool
  | move x => x.isReset
  | read | suspend _ => false

/-- What becomes of a call with its next step, once it has passed its checks: it is refused just if a
suspension holds its slot; under its guard it does to the stack what it has to do, and writes that
unless something is dropped; and then it returns. -/
def Machine.Proceeds (m : Machine) (who : OsThread) (a : Activity) : Prop :=
  let m' := m.step (.advance who)
  match a.stage with
  | .cleared epoch slot fresh =>
    if slot ∈ m.tracer.suspension.held then
      m.outcome (.advance who) = .returned (.error .guarded) ∧ m'.active who.id = []
    else m'.active who.id = [{ a with stage := .guarding epoch slot fresh }]
  | .guarding _ slot fresh =>
    m'.active who.id = [{ a with stage := .closing slot }] ∧
      ∃ s, m.stackOf who.id = some s ∧
        m'.stackOf who.id = some (a.call.deed (m.tracer.scribe s.no) s).1 ∧
        (m.suspensions < UInt64.size → m'.tracer.queue.dropped = m.tracer.queue.dropped →
          m'.tracer.written = m.tracer.written ++ a.call.greeting (m.tracer.scribe s.no) fresh ++
            (a.call.deed (m.tracer.scribe s.no) s).2)
  | .closing _ => m.outcome (.advance who) = .returned (.ok ()) ∧ m'.active who.id = []
  | _ => True

namespace Machine
variable {m : Machine} {limit : UInt32} {who : OsThread} {a : Activity}

theorem proceeds (h : m.Orderly limit) (hu : m.Untold) (ht : m.suspensions < UInt64.size → m.InTime)
    (hact : m.active who.id = [a]) : m.Proceeds who a := by
  have hslot := h.slot who.id a (by rw [hact]; exact List.mem_cons_self)
  obtain ⟨c, counted, st⟩ := a
  obtain ⟨l, stage, hgoes, hm, houtcome⟩ := advance_outcome hact
  have hactive : (m.step (.advance who)).active who.id = (Activity.mk c counted st).next stage := by
    simp [hm, put]
  have hguard : ∀ slot s, st.slot? = some slot → m.tracer.roster.stack? slot = some s →
      s.guard.toInt = m.tracer.suspension.weight slot + st.weight := fun slot s hst hs => by
    simpa [hact] using h.guard who.id slot s (hslot slot hst) hs
  unfold Proceeds
  cases hgoes with
  | @guarded _ _ slot _ hg =>
    -- none of its own calls holds the guard, so a suspension does
    obtain ⟨s, hs⟩ := h.sound.stack?_of_slot? (hslot slot rfl)
    have hheld : slot ∈ m.tracer.suspension.held := by
      have hguarded := hg s hs
      by_contra hnot
      simp [CallStack.guarded_eq, hguard slot s rfl hs, Suspension.weight, hnot, Stage.weight,
        Stage.guards] at hguarded
    simp only [hheld, ↓reduceIte]
    exact ⟨houtcome, hactive⟩
  | @guard _ _ _ slot _ s hs hg =>
    have hnot : slot ∉ m.tracer.suspension.held := fun hheld => by
      simp [CallStack.guarded_eq, hguard slot s rfl hs, Suspension.weight, hheld, Stage.weight,
        Stage.guards] at hg
    simp only [hnot, ↓reduceIte]
    exact hactive
  | @act _ _ epoch slot fresh =>
    have hi := hslot slot rfl
    obtain ⟨s, hs⟩ := h.sound.stack?_of_slot? hi
    have hclosing := Call.act_closes (c := c) hu.hasHandler epoch slot fresh
    have hr : m.tracer.Reworks slot 0 (c.act m.tracer epoch slot fresh).1 :=
      Call.act_touches.reworks
    rcases c.act_cases epoch fresh hs with ⟨-, hstack, hwritten⟩ | ⟨o, htold, -⟩
    swap
    · rw [hclosing] at htold
      cases htold
    rw [hclosing] at hactive hm
    refine ⟨hactive, s, by rw [stackOf, Roster.stackOf_of_slot? hi, hs], ?_, fun hn hd => ?_⟩
    · rw [hm, stackOf, put, Activity.settle_roster,
        Roster.stackOf_of_slot? ((hr.slot? who.id).trans hi), hstack]
    · have ha : (⟨c, counted, .guarding epoch slot fresh⟩ : Activity) ∈ m.active who.id := by
        rw [hact]; exact List.mem_cons_self
      have hkeeps := (ht hn).coupled.keepsOut ((ht hn).precedes _ _ ha epoch rfl)
      simp only [hm, put, Activity.settle_queue, Tracer.written] at hd ⊢
      exact hwritten hkeeps hd
  | close => exact ⟨houtcome, hactive⟩
  | _ => trivial

end Machine

namespace Race

def new (t : Tracer) : Race := ⟨.new t, []⟩

def step (g : Race) : RaceMove → Race
  | .move x => { g with machine := g.machine.step x }
  | .read => { g with readings := g.readings ++ [g.machine.tracer.roster.slots] }
  | .suspend k =>
    match g.readings[k]? with
    | none => g
    | some slots => ⟨g.machine.suspendSlots slots, g.readings.eraseIdx k⟩

def run (g : Race) (moves : List RaceMove) : Race := moves.foldl step g

/-- Whether a move refuses the call at the guard that is to announce a thread. -/
def silences (g : Race) (i : Nat) : RaceMove → Bool
  | .move x => g.machine.silences x i
  | .read | .suspend _ => false

/-- Whether some move of a run does so. -/
def silenced (g : Race) (i : Nat) : List RaceMove → Bool
  | [] => false
  | x :: xs => g.silences i x || (g.step x).silenced i xs

variable {g : Race} {limit : UInt32} {i : Nat} {refused : Bool}

theorem suspensions_le_step (x : RaceMove) : g.machine.suspensions ≤ (g.step x).machine.suspensions := by
  cases x with
  | move x => exact Machine.suspensions_le_step x
  | read => exact Nat.le_refl _
  | suspend k =>
    simp only [step]
    split
    · exact Nat.le_refl _
    · rename_i slots _
      rcases g.machine.suspendSlots_cases slots with heq | ⟨-, heq⟩
      · exact Nat.le_of_eq (congrArg Machine.suspensions heq).symm
      · exact Nat.le_of_lt (congrArg Machine.suspensions heq ▸ Nat.lt_succ_self _)

theorem suspensions_le_run (xs : List RaceMove) :
    g.machine.suspensions ≤ (g.run xs).machine.suspensions := by
  induction xs generalizing g with
  | nil => exact Nat.le_refl _
  | cons x xs ih => exact Nat.le_trans (suspensions_le_step x) ih

/-- The slots that have been read are still in use, and nobody is told. -/
structure Fair (limit : UInt32) (g : Race) : Prop where
  orderly : g.machine.Orderly limit
  untold : g.machine.Untold
  nodup : ∀ slots ∈ g.readings, slots.Nodup
  lt : ∀ slots ∈ g.readings, ∀ s ∈ slots, s < g.machine.tracer.roster.callStacks.size

namespace Fair

theorem new (id : Nat) (s : Settings) : (Race.new (.new id s false)).Fair s.threadSlots :=
  ⟨.new id s false, .new id s, List.forall_mem_nil _, List.forall_mem_nil _⟩

theorem step (h : g.Fair limit) {x : RaceMove} (hx : x.isReset = false) : (g.step x).Fair limit := by
  cases x with
  | move x =>
    exact ⟨h.orderly.step x hx, h.untold.step x, h.nodup, fun slots hslots s hs =>
      Nat.lt_of_lt_of_le (h.lt slots hslots s hs) (g.machine.size_le_step x)⟩
  | read =>
    refine ⟨h.orderly, h.untold, fun slots hslots => ?_, fun slots hslots => ?_⟩ <;>
      rcases List.mem_append.mp hslots with hslots | hslots
    · exact h.nodup slots hslots
    · rw [List.mem_singleton.mp hslots]; exact h.orderly.slots_lt.1
    · exact h.lt slots hslots
    · rw [List.mem_singleton.mp hslots]; exact h.orderly.slots_lt.2
  | suspend k =>
    simp only [Race.step]
    split
    · exact h
    · rename_i slots hk
      have hslots := List.mem_of_getElem? hk
      have hsize : (g.machine.suspendSlots slots).tracer.roster.callStacks.size =
          g.machine.tracer.roster.callStacks.size := by
        rcases g.machine.suspendSlots_cases slots with heq | ⟨-, heq⟩ <;> rw [heq]
        exact (Suspension.foldl_modify (f := CallStack.bump) (h.nodup slots hslots) _).1
      exact ⟨h.orderly.suspendSlots (h.nodup slots hslots) (h.lt slots hslots),
        h.untold.suspendSlots slots, fun s hs => h.nodup s (List.mem_of_mem_eraseIdx hs),
        fun s hs => by rw [hsize]; exact h.lt s (List.mem_of_mem_eraseIdx hs)⟩

theorem run (h : g.Fair limit) {xs : List RaceMove} (hx : ∀ x ∈ xs, x.isReset = false) :
    (g.run xs).Fair limit := by
  induction xs generalizing g with
  | nil => exact h
  | cons x xs ih =>
    exact ih (h.step (hx x List.mem_cons_self)) fun y hy => hx y (List.mem_cons_of_mem _ hy)

end Fair

theorem inTime_step (h : g.machine.InTime) (x : RaceMove)
    (hn : (g.step x).machine.suspensions < UInt64.size) : (g.step x).machine.InTime := by
  cases x with
  | move x => exact h.step x hn
  | read => exact h
  | suspend k =>
    simp only [step] at hn ⊢
    split
    · exact h
    · rename_i slots hk
      rw [hk] at hn
      exact h.suspendSlots hn

theorem inTime_run (h : g.machine.InTime) (xs : List RaceMove)
    (hn : (g.run xs).machine.suspensions < UInt64.size) : (g.run xs).machine.InTime := by
  induction xs generalizing g with
  | nil => exact h
  | cons x xs ih => exact ih (inTime_step h x (Nat.lt_of_le_of_lt (suspensions_le_run xs) hn)) hn

theorem heralded_step (h : g.Fair limit) (ht : g.machine.InTime) {x : RaceMove}
    (hx : x.isReset = false) (hh : (g.machine.view i).Heralded refused) :
    ((g.step x).machine.view i).Heralded (refused || g.silences i x) := by
  cases x with
  | move x => exact Machine.heralded_step h.orderly h.untold ht hx hh
  | read => rwa [silences, Bool.or_false]
  | suspend k =>
    rw [silences, Bool.or_false]
    simp only [step]
    split
    · exact hh
    · rename_i slots hk
      rwa [Machine.view_suspendSlots h.orderly (h.nodup slots (List.mem_of_getElem? hk))]

/-- What has been announced of a thread after a run. -/
theorem heralded_run (h : g.Fair limit) (ht : g.machine.InTime) {xs : List RaceMove}
    (hx : ∀ x ∈ xs, x.isReset = false) (hn : (g.run xs).machine.suspensions < UInt64.size)
    (hh : (g.machine.view i).Heralded refused) :
    ((g.run xs).machine.view i).Heralded (refused || g.silenced i xs) := by
  induction xs generalizing g refused with
  | nil => rwa [silenced, Bool.or_false]
  | cons x xs ih =>
    have hxs : ∀ y ∈ xs, y.isReset = false := fun y hy => hx y (List.mem_cons_of_mem _ hy)
    have hx := hx x List.mem_cons_self
    rw [silenced, ← Bool.or_assoc]
    exact ih (h.step hx) (inTime_step ht x (Nat.lt_of_le_of_lt (suspensions_le_run xs) hn)) hxs hn
      (heralded_step h ht hx hh)

end Race

/-- However the steps of hooks, suspensions and resumptions come between each other, as long as nobody
is told of first invocations: a hook that has passed its checks goes on to its end, unless a suspension
holds the slot of its thread before it has taken the guard (`Proceeds`). And every thread whose
registering call is past that point is announced once, before all its other records, unless that call
was refused at the guard; then it is not announced at all. -/
theorem hooks_race_with_suspensions (id : Nat) (s : Settings) (xs : List RaceMove)
    (hx : ∀ x ∈ xs, x.isReset = false) :
    let m := ((Race.new (.new id s false)).run xs).machine
    (∀ who a rest, m.active who.id = a :: rest → rest = [] ∧ m.Proceeds who a) ∧
    (m.suspensions < UInt64.size → ∀ i c, m.stackOf i = some c →
      (∀ a ∈ m.active i, a.stage.fresh = false) →
      if (Race.new (.new id s false)).silenced i xs then
        ∀ r ∈ m.recordsOf i, r.isOf .threadCreated = false
      else ∃ r rs, m.recordsOf i = r :: rs ∧ r.isOf .threadCreated = true ∧
        ∀ r' ∈ rs, r'.isOf .threadCreated = false) := by
  intro m
  have hnew := Race.Fair.new id s
  have h := hnew.run hx
  have ht : m.suspensions < UInt64.size → m.InTime := fun hn =>
    Race.inTime_run (.new id s false) xs hn
  refine ⟨fun who a rest hact => ?_, fun hn i c hc hfresh => ?_⟩
  · obtain rfl := h.untold.rest_eq_nil h.orderly hact
    exact ⟨rfl, Machine.proceeds h.orderly h.untold ht hact⟩
  · have hnone : ((Race.new (.new id s false)).machine.view i).Heralded false := .stranger rfl
    have hh := Race.heralded_run hnew (.new id s false) hx hn hnone
    rw [Bool.false_or] at hh
    exact Machine.announced_once hh hc hfresh

/-- Two threads enter a root. Tracing is suspended when the first has taken the guard and the second
has passed its checks: one of them comes to its end, the other is refused and never announced. -/
theorem hooks_race_with_suspensions_two_threads :
    let go (i : Nat) : RaceMove := .move (.advance ⟨i, none⟩)
    let enter (i : Nat) : RaceMove := .move (.call ⟨i, none⟩ ⟨.rootEntry, ⟨1⟩, none⟩ true)
    let xs := [enter 0, go 0, go 0, go 0, enter 1, go 1, .read, go 1, .suspend 0]
    let ys := xs ++ [go 0, go 0, go 1]
    let m := ((Race.new (.new 0 .default false)).run xs).machine
    let m' := ((Race.new (.new 0 .default false)).run ys).machine
    (∀ x ∈ xs, x.isReset = false) ∧ (∀ x ∈ ys, x.isReset = false) ∧
      (m.step (.advance ⟨0, none⟩)).active 0 =
        [⟨⟨.rootEntry, ⟨1⟩, none⟩, true, .closing 0⟩] ∧
      m.outcome (.advance ⟨1, none⟩) = .returned (.error .guarded) ∧
      (∃ r rs, m'.recordsOf 0 = r :: rs ∧ r.isOf .threadCreated = true ∧
        ∀ r' ∈ rs, r'.isOf .threadCreated = false) ∧
      m'.stackOf 1 ≠ none ∧ ∀ r ∈ m'.recordsOf 1, r.isOf .threadCreated = false := by
  intro go enter xs ys
  have hxs : ∀ x ∈ xs, x.isReset = false := by decide
  have hys : ∀ x ∈ ys, x.isReset = false := by decide
  obtain ⟨hproceeds, -⟩ := hooks_race_with_suspensions 0 .default xs hxs
  obtain ⟨-, honce⟩ := hooks_race_with_suspensions 0 .default ys hys
  have hsilenced : (Race.new (.new 0 .default false)).silenced 0 ys = false ∧
      (Race.new (.new 0 .default false)).silenced 1 ys = true := by decide +kernel
  dsimp only at hproceeds honce ⊢
  generalize (Race.new (.new 0 .default false)).silenced = silenced at hsilenced honce
  generalize hm : ((Race.new (.new 0 .default false)).run xs).machine = m at hproceeds ⊢
  generalize hm' : ((Race.new (.new 0 .default false)).run ys).machine = m' at honce ⊢
  have hact : m.active 0 = [⟨⟨.rootEntry, ⟨1⟩, none⟩, true, .guarding 0 0 true⟩] ∧
      m.active 1 = [⟨⟨.rootEntry, ⟨1⟩, none⟩, true, .cleared 0 1 true⟩] ∧
      1 ∈ m.tracer.suspension.held := by rw [← hm]; decide +kernel
  have hidle : m'.active 0 = [] ∧ m'.active 1 = [] ∧ m'.suspensions < UInt64.size ∧
      m'.stackOf 0 ≠ none ∧ m'.stackOf 1 ≠ none := by rw [← hm']; decide +kernel
  obtain ⟨hact, hact', hheld⟩ := hact
  obtain ⟨hidle, hidle', hn, hs, hs'⟩ := hidle
  obtain ⟨c, hc⟩ := Option.ne_none_iff_exists'.mp hs
  obtain ⟨c', hc'⟩ := Option.ne_none_iff_exists'.mp hs'
  have hguarding := (hproceeds ⟨0, none⟩ _ _ hact).2
  have hcleared := (hproceeds ⟨1, none⟩ _ _ hact').2
  have hsaid := honce hn 0 c hc (by rw [hidle]; exact List.forall_mem_nil _)
  have hsilent := honce hn 1 c' hc' (by rw [hidle']; exact List.forall_mem_nil _)
  rw [hsilenced.1, if_neg Bool.false_ne_true] at hsaid
  rw [hsilenced.2, if_pos rfl] at hsilent
  simp only [Machine.Proceeds, hheld, ↓reduceIte] at hguarding hcleared
  exact ⟨hxs, hys, hguarding.1, hcleared.1, hsaid, hs', hsilent⟩

/-- A marker is entered. When its hook has registered the thread and passed its checks, somebody reads
the slots and suspends tracing: the hook is refused, and there is no record of the thread, though
tracing is resumed. -/
theorem hook_refused_behind_its_checks :
    let go : RaceMove := .move (.advance ⟨0, none⟩)
    let g := (Race.new (.new 0 .default false)).run
      [.move (.call ⟨0, none⟩ ⟨.markerEntry, ⟨1⟩, none⟩ true), go, go]
    let g' := g.run [.read, .suspend 0, go, .move .resume]
    g.machine.active 0 = [⟨⟨.markerEntry, ⟨1⟩, none⟩, true, .cleared 0 0 true⟩] ∧
      g'.machine.active 0 = [] ∧ g'.machine.tracer.tally.guarded = 1 ∧
      g'.machine.stackOf 0 = some (.new ⟨1⟩ none) ∧ g'.machine.recordsOf 0 = [] := by
  decide +kernel

end MethodTrace
