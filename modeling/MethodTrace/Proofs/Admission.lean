import Mathlib.Data.List.Infix
import MethodTrace.Proofs.Orderly
import MethodTrace.Proofs.Remembrance

/-!
# Admission

A thread asks for admission in the calls by which it enters a root or a marker. `Admissions` keeps,
beside a run, who has asked since the last reset and in which order. Registered are the first who
have asked, as many as there are slots, whatever the threads remember of it (`Admitted`).
-/

namespace MethodTrace

/-- A thread gets in line unless it is barred or in line already. -/
def joined (barred line : List Nat) : Option Nat → List Nat
  | some i => if i ∈ barred ∨ i ∈ line then line else line ++ [i]
  | none => line

section joined
variable {barred line : List Nat} {i n : Nat}

theorem joined_of_mem (h : i ∈ barred ∨ i ∈ line) : joined barred line (some i) = line := if_pos h

theorem joined_of_not_mem (hb : i ∉ barred) (hl : i ∉ line) :
    joined barred line (some i) = line ++ [i] :=
  if_neg fun h => h.elim hb hl

theorem prefix_joined (barred line : List Nat) (i? : Option Nat) :
    line <+: joined barred line i? := by
  unfold joined
  split
  · split
    · exact List.prefix_rfl
    · exact List.prefix_append _ _
  · exact List.prefix_rfl

theorem mem_joined (barred line : List Nat) (i : Nat) :
    i ∈ barred ∨ i ∈ joined barred line (some i) := by
  by_cases hb : i ∈ barred
  · exact .inl hb
  · by_cases hl : i ∈ line
    · exact .inr ((prefix_joined _ _ _).subset hl)
    · rw [joined_of_not_mem hb hl]
      exact .inr (by simp)

theorem nodup_joined (h : line.Nodup) (i? : Option Nat) : (joined barred line i?).Nodup := by
  unfold joined
  split
  · split
    · exact h
    · rename_i i hi
      rw [not_or] at hi
      simpa using h.concat hi.2
  · exact h

end joined

/-- The first in a line do not change when others join. -/
theorem prefix_take_eq {line line' : List Nat} {n : Nat} (h : line <+: line')
    (hn : n ≤ line.length) : line'.take n = line.take n := by
  obtain ⟨rest, rfl⟩ := h
  exact List.take_append_of_le_length hn

namespace Machine

/-- The thread that enters a root or a marker while tracing is running. -/
def entrant? (m : Machine) : Move → Option Nat
  | .call who c _ =>
    if m.ready who.id && c.hook.enrolls && !m.tracer.suspension.suspended then some who.id else none
  | _ => none

/-- The thread whose call asks for admission. -/
def applicant? (m : Machine) : Move → Option Nat
  | .advance who =>
    match m.active who.id with
    | ⟨c, _, .running _⟩ :: _ => if c.hook.enrolls then some who.id else none
    | _ => none
  | _ => none

theorem applicant?_advance {m : Machine} {who : OsThread} {a : Activity} {rest : List Activity}
    {epoch : UInt64} (hact : m.active who.id = a :: rest) (hstage : a.stage = .running epoch)
    (hc : a.call.hook.enrolls = true) : m.applicant? (.advance who) = some who.id := by
  obtain ⟨c, counted, stage⟩ := a
  cases hstage
  rw [applicant?, hact]
  exact if_pos hc

theorem applicant?_eq_some {m : Machine} {x : Move} {i : Nat} (h : m.applicant? x = some i) :
    ∃ who a rest epoch, x = .advance who ∧ who.id = i ∧ m.active who.id = a :: rest ∧
      a.stage = .running epoch ∧ a.call.hook.enrolls = true := by
  unfold applicant? at h
  split at h
  · rename_i who
    split at h
    · rename_i c counted epoch rest hact
      split at h
      · rename_i hc
        cases h
        exact ⟨who, _, rest, epoch, rfl, rfl, hact, rfl, hc⟩
      · cases h
    · cases h
  · cases h

end Machine

/-- A run, and who has been about to be registered in it since the last reset. -/
structure Admissions where
  machine : Machine
  /-- How many threads may be registered. -/
  slots : UInt32
  /-- How often all has been reset. -/
  resets : Nat
  /-- The threads that have been excluded, now or before a reset. -/
  barred : List Nat
  /-- The threads that have entered a root or a marker since the last reset while tracing was
  running, in their order, unless they had been excluded by then. -/
  entered : List Nat
  /-- The threads that have asked for admission since the last reset, in their order, unless they had
  been excluded by then. -/
  asked : List Nat
  /-- The numbers of the threads whose registration has been told since the last reset. -/
  told : List UInt32

namespace Admissions

def new (t : Tracer) : Admissions := ⟨.new t, t.quota.remaining, 0, [], [], [], []⟩

def step (a : Admissions) (x : Move) : Admissions where
  machine := a.machine.step x
  slots := a.machine.slotsAfter a.slots x
  resets := if a.machine.resets x then a.resets + 1 else a.resets
  barred := x.excluded?.toList ++ a.barred
  entered := if a.machine.resets x then [] else joined a.barred a.entered (a.machine.entrant? x)
  asked := if a.machine.resets x then [] else joined a.barred a.asked (a.machine.applicant? x)
  told := if a.machine.resets x then [] else a.told ++ announced (a.machine.news x)

def run (a : Admissions) (xs : List Move) : Admissions := xs.foldl step a

@[simp] theorem run_cons (a : Admissions) (x : Move) (xs : List Move) :
    a.run (x :: xs) = (a.step x).run xs := rfl

@[simp] theorem run_machine (a : Admissions) (xs : List Move) :
    (a.run xs).machine = a.machine.run xs := by
  induction xs generalizing a with
  | nil => rfl
  | cons x xs ih => exact ih (a.step x)

variable {a : Admissions}

theorem resets_le_step (a : Admissions) (x : Move) : a.resets ≤ (a.step x).resets := by
  show a.resets ≤ if a.machine.resets x then a.resets + 1 else a.resets
  split <;> omega

theorem resets_le_run (a : Admissions) (xs : List Move) : a.resets ≤ (a.run xs).resets := by
  induction xs generalizing a with
  | nil => exact Nat.le_refl _
  | cons x xs ih => exact Nat.le_trans (a.resets_le_step x) (ih (a.step x))

end Admissions

/-! ### Asking for admission -/

/-- What comes of asking for admission: the thread is registered, or it was already, or it is
denied for a reason. -/
inductive Call.Answer (who : OsThread) (reason : Prop) (l : Local) (epoch : UInt64) (l' : Local) :
    Stage → Prop where
  | admitted {q : Quota} (hslot : l.tracer.roster.slot? who.id = none)
    (he : who.id ∉ l.tracer.roster.excluded) (hq : l.tracer.quota.take = some q)
    (hr : l'.tracer.roster = l.tracer.roster.enlist who) :
    Answer who reason l epoch l' (.enrolled epoch l.tracer.roster.callStacks.size true)
  | found {slot : Slot} (hslot : l.tracer.roster.slot? who.id = some slot)
    (hr : l'.tracer.roster = l.tracer.roster) :
    Answer who reason l epoch l' (.enrolled epoch slot false)
  | denied (hr : l'.tracer.roster = l.tracer.roster) (h : reason ∨ l.tracer.Denies who.id) :
    Answer who reason l epoch l' (.returned (.error .admissionDenied))

theorem Call.Goes.answer {c : Call} {who : OsThread} {reason : Prop} {l l' : Local}
    {epoch : UInt64} {stage' : Stage} (h : c.Goes who l (.running epoch) l' stage')
    (hc : c.hook.enrolls = true) (hm : l.tracer.roster.Minds reason who.id l.memory) :
    Call.Answer who reason l epoch l' stage' := by
  cases h with
  | find h => exact .found (hm.recalls.slot?_of_registered h) rfl
  | @denied t memory memory' _ h =>
    rw [if_pos hc]
    refine .denied rfl ?_
    rcases (hm.consult h).1 with hlookup | ⟨-, hreason⟩
    · by_cases he : who.id ∈ t.roster.excluded
      · exact .inr (.inr he)
      · exact absurd hlookup.symm (Roster.lookup_ne_denied he)
    · exact .inl hreason
  | stranger _ hc' => rw [hc] at hc'; cases hc'
  | @register t memory memory' _ slot h _ hr =>
    have hnone := hm.recalls.slot?_of_unregistered h
    obtain ⟨rfl, he, q, hq, heq⟩ := Roster.register_of_slot_eq_some hnone hr
    rw [heq]
    exact .admitted hnone he hq rfl
  | @refuse t memory memory' _ h _ hr =>
    have hnone := hm.recalls.slot?_of_unregistered h
    obtain ⟨hd, heq⟩ := Roster.register_of_slot_eq_none hnone hr
    rw [heq]
    exact .denied rfl (.inr hd)

/-- A call that is refused as it asks for admission. -/
theorem Call.run_eq_of_returned {c : Call} {who : OsThread} {l : Local} {epoch : UInt64}
    {result : Except HookError Unit} (hopen : l.tracer.suspension.openEpoch = some epoch)
    (h : (c.advance who l (.running epoch)).2 = .returned result) : (c.run who l).2 = result := by
  have hcalled : c.advance who l .called = (l, .running epoch) := by simp only [advance, hopen]
  have hstart : c.start who l = c.steps who 5 (c.advance who l .called) := rfl
  have hrunning : c.steps who 5 (l, .running epoch) =
    c.steps who 4 (c.advance who l (.running epoch)) := rfl
  rw [run, hstart, hcalled, hrunning]
  generalize c.advance who l (.running epoch) = x at h
  obtain ⟨l', stage⟩ := x
  cases h
  rfl

namespace Machine
variable {m : Machine} {x : Move}

/-- After a reset nobody is registered. -/
theorem members_of_resets (hx : m.resets x = true) : (m.step x).tracer.roster.members = [] := by
  have hseats := m.seats_step x
  generalize m.step x = m' at hseats
  cases hseats with
  | same hx' => rw [hx] at hx'; cases hx'
  | enlist => cases hx
  | clear _ hr => rw [hr]; rfl

/-- Only calls that ask for admission register anybody. -/
theorem members_of_no_applicant (hx : m.resets x = false) (hi : m.applicant? x = none) :
    (m.step x).tracer.roster.members = m.tracer.roster.members := by
  have hseats := m.seats_step x
  generalize m.step x = m' at hseats
  cases hseats with
  | same _ hr _ => exact hr.members
  | enlist hact hstage hc =>
    rw [applicant?_advance hact hstage hc] at hi
    cases hi
  | clear hs => rw [resets, hs] at hx; cases hx

theorem excluded_proceed (m : Machine) (who : OsThread) (a : Activity) (rest : List Activity) :
    (m.proceed who a rest).tracer.roster.excluded = m.tracer.roster.excluded := by
  obtain ⟨l, stage, hgoes, hm⟩ := m.proceed_goes who a rest
  obtain ⟨-, -, hexcluded⟩ := hgoes.roster_same
  simpa [hm, put] using hexcluded

/-- Threads are excluded for good. -/
theorem mem_excluded_step (m : Machine) (x : Move) (i : Nat) :
    i ∈ (m.step x).tracer.roster.excluded ↔
      i ∈ x.excluded?.toList ++ m.tracer.roster.excluded := by
  have hsame : (m.step x).tracer.roster.excluded = m.tracer.roster.excluded → x.excluded? = none →
      (i ∈ (m.step x).tracer.roster.excluded ↔
        i ∈ x.excluded?.toList ++ m.tracer.roster.excluded) := by
    intro h hx
    rw [h, hx]
    rfl
  cases x with
  | call who c counted =>
    refine hsame ?_ rfl
    simp only [step, Machine.call]
    split
    · rw [excluded_proceed, note_tracer]
    · rfl
  | advance who =>
    refine hsame ?_ rfl
    simp only [step, Machine.advance]
    split
    · rfl
    · exact excluded_proceed ..
  | suspend =>
    refine hsame ?_ rfl
    have hroster := Suspension.bumpAll_eq m.tracer.roster m.tracer.roster.slots
    rcases m.suspend_cases with heq | ⟨-, heq⟩ <;> rw [step, heq]
    dsimp only
    rw [hroster]
  | resume =>
    refine hsame ?_ rfl
    have hroster := Suspension.releaseAll_eq m.tracer.roster m.tracer.suspension.held
    rcases m.resume_cases with heq | ⟨-, heq⟩ <;> rw [step, heq]
    dsimp only
    rw [hroster]
  | reset l =>
    refine hsame ?_ rfl
    rcases hr : m.tracer.reset l with e | t
    · rw [step, Machine.reset, hr]
    · obtain ⟨-, rfl⟩ := Tracer.reset_eq_ok hr
      rw [step, Machine.reset, hr]
      rfl
  | elsewhere j r => refine hsame ?_ rfl; rw [step]; split <;> rfl
  | exclude j =>
    show i ∈ (m.tracer.roster.exclude j).1.excluded ↔ _
    by_cases hj : j ∈ m.tracer.roster.excluded
    · simp only [Roster.exclude, hj, if_pos, Move.excluded?, Option.toList_some,
        List.singleton_append, List.mem_cons]
      exact ⟨.inr, fun h => h.elim (fun h => h ▸ hj) id⟩
    · simp [Roster.exclude, hj, Move.excluded?]
  | _ => exact hsame rfl rfl

end Machine

namespace Admissions
variable {a : Admissions}

/-- Who is registered, and why others are denied. -/
structure Admitted (a : Admissions) : Prop where
  seated : a.machine.tracer.roster.Seated a.machine.tracer.quota a.slots
  mindful : a.machine.Mindful a.resets fun i => i ∈ a.barred ∨ i ∈ a.asked
  excluded : ∀ i, i ∈ a.machine.tracer.roster.excluded ↔ i ∈ a.barred
  nodup : a.asked.Nodup
  members : a.machine.tracer.roster.members.map Prod.fst = a.asked.take a.slots.toNat

namespace Admitted

theorem new (id : Nat) (s : Settings) (hasHandler : Bool) :
    (Admissions.new (.new id s hasHandler)).Admitted where
  seated := .new id s.threadSlots
  mindful := .new id s hasHandler _
  excluded _ := Iff.rfl
  nodup := List.nodup_nil
  members := List.take_nil.symm

variable {i : Nat}

theorem size_eq (h : a.Admitted) :
    a.machine.tracer.roster.size = min a.slots.toNat a.asked.length := by
  have := congrArg List.length h.members
  simpa [Roster.size] using this

theorem asked_of_slot? (h : a.Admitted) {s : Slot}
    (hs : a.machine.tracer.roster.slot? i = some s) : i ∈ a.asked := by
  have hmem := List.mem_map_of_mem (f := Prod.fst) (Roster.mem_of_slot? hs)
  rw [h.members] at hmem
  exact List.mem_of_mem_take hmem

theorem slots_le (h : a.Admitted) (hq : a.machine.tracer.quota.remaining = 0) :
    a.slots.toNat ≤ a.asked.length := by
  have hroom := h.seated.room
  have hzero : (0 : UInt32).toNat = 0 := rfl
  rw [hq, hzero] at hroom
  have hsize := h.size_eq
  omega

/-- As long as there is room, all are registered who have asked. -/
theorem members_of_take (h : a.Admitted) {q : Quota}
    (hq : a.machine.tracer.quota.take = some q) :
    a.machine.tracer.roster.members.map Prod.fst = a.asked ∧ a.asked.length < a.slots.toNat := by
  have hlt := h.seated.size_lt hq
  have hsize := h.size_eq
  have hlength : a.asked.length < a.slots.toNat := by omega
  rw [h.members]
  exact ⟨List.take_of_length_le (Nat.le_of_lt hlength), hlength⟩

theorem not_mem_asked (h : a.Admitted) {q : Quota} (hq : a.machine.tracer.quota.take = some q)
    (hslot : a.machine.tracer.roster.slot? i = none) : i ∉ a.asked := by
  rw [← (h.members_of_take hq).1]
  exact Roster.slot?_eq_none_iff.mp hslot

/-- Who asks is registered if there is room and nobody has excluded the thread. -/
theorem members_step (h : a.Admitted) (x : Move) (hx : a.machine.resets x = false) :
    (a.machine.step x).tracer.roster.members.map Prod.fst =
      (joined a.barred a.asked (a.machine.applicant? x)).take a.slots.toNat := by
  rcases hi : a.machine.applicant? x with _ | i
  · rw [Machine.members_of_no_applicant hx hi]
    exact h.members
  obtain ⟨who, act, rest, epoch, rfl, rfl, hact, hstage, hc⟩ := Machine.applicant?_eq_some hi
  obtain ⟨l, stage, hgoes, heq⟩ := Machine.advance_goes hact
  rw [hstage] at hgoes
  have hroster : (a.machine.step (.advance who)).tracer.roster = l.tracer.roster := by
    simp [heq, Machine.put]
  have hkeep : l.tracer.roster = a.machine.tracer.roster →
      (who.id ∈ a.barred ∨ who.id ∈ a.asked) ∨ a.slots.toNat ≤ a.asked.length →
      l.tracer.roster.members.map Prod.fst =
        (joined a.barred a.asked (some who.id)).take a.slots.toNat := by
    rintro hr (hmem | hfull)
    · rw [joined_of_mem hmem, hr]
      exact h.members
    · rw [prefix_take_eq (prefix_joined _ _ _) hfull, hr]
      exact h.members
  rw [hroster]
  cases hgoes.answer hc (h.mindful.minds who.id) with
  | admitted hslot he hq hr =>
    obtain ⟨hall, hlt⟩ := h.members_of_take hq
    have hbarred : who.id ∉ a.barred := fun hb => he ((h.excluded who.id).mpr hb)
    rw [hr, joined_of_not_mem hbarred (h.not_mem_asked hq hslot), List.take_of_length_le]
    · simp [Roster.enlist, hall]
    · rw [List.length_append]
      exact hlt
  | found hslot hr => exact hkeep hr (.inl (.inr (h.asked_of_slot? hslot)))
  | denied hr hd =>
    refine hkeep hr ?_
    rcases hd with hmem | hfull | he
    · exact .inl hmem
    · exact .inr (h.slots_le hfull)
    · exact .inl (.inl ((h.excluded who.id).mp he))

theorem step (h : a.Admitted) (x : Move) (hn : (a.step x).resets < UInt64.size) :
    (a.step x).Admitted where
  seated := Machine.seated_step h.seated x
  mindful := by
    refine h.mindful.step x hn (fun hx i => ?_) (fun i hi => ?_)
      fun who act rest epoch hxw hact hstage hc _ _ => ?_
    · refine Or.imp (fun hb => List.mem_append_right _ hb) fun hi => ?_
      simp only [Admissions.step, hx, Bool.false_eq_true, if_false]
      exact (prefix_joined _ _ _).subset hi
    · subst hi
      exact .inl (List.mem_cons_self)
    · subst hxw
      have happlicant := Machine.applicant?_advance hact hstage hc
      have hmem := mem_joined a.barred a.asked who.id
      rw [← happlicant] at hmem
      exact hmem
  excluded i := by
    rw [show (a.step x).machine = a.machine.step x from rfl, Machine.mem_excluded_step]
    simp only [Admissions.step, List.mem_append, h.excluded]
  nodup := by
    simp only [Admissions.step]
    split
    · exact List.nodup_nil
    · exact nodup_joined h.nodup _
  members := by
    cases hx : a.machine.resets x with
    | false =>
      simp only [Admissions.step, hx, Machine.slotsAfter_of_resets hx]
      exact h.members_step x hx
    | true =>
      simp only [Admissions.step, hx, if_true, List.take_nil]
      rw [Machine.members_of_resets hx, List.map_nil]

/-- However many resets there are. -/
theorem seated_run (h : a.machine.tracer.roster.Seated a.machine.tracer.quota a.slots)
    (xs : List Move) : (a.run xs).machine.tracer.roster.Seated (a.run xs).machine.tracer.quota
      (a.run xs).slots := by
  induction xs generalizing a with
  | nil => exact h
  | cons x xs ih => exact ih (a := a.step x) (Machine.seated_step h x)

theorem run (h : a.Admitted) (xs : List Move) (hn : (a.run xs).resets < UInt64.size) :
    (a.run xs).Admitted := by
  induction xs generalizing a with
  | nil => exact h
  | cons x xs ih => exact ih (h.step x (Nat.lt_of_le_of_lt (resets_le_run _ xs) hn)) hn

/-- Nobody who has asked in vain is registered any more. -/
theorem slots_lt_of_slot?_eq_none (h : a.Admitted) (hi : i ∈ a.asked)
    (hslot : a.machine.tracer.roster.slot? i = none) : a.slots.toNat < a.asked.length := by
  by_contra hle
  have hall := h.members
  rw [List.take_of_length_le (Nat.le_of_not_lt hle)] at hall
  rw [← hall] at hi
  exact Roster.slot?_eq_none_iff.mp hslot hi

theorem run_eq_admissionDenied (h : a.Admitted) {who : OsThread} {c : Call}
    (hc : c.hook.enrolls = true) (hs : a.machine.tracer.suspension.suspended = false)
    (hi : who.id ∈ a.asked) (hslot : a.machine.tracer.roster.slot? who.id = none) :
    (c.run who ⟨a.machine.tracer, a.machine.memory who.id⟩).2 = .error .admissionDenied := by
  refine Call.run_eq_of_returned (Suspension.openEpoch_eq_some_iff.mpr ⟨hs, rfl⟩) ?_
  have hgoes : c.Goes who ⟨a.machine.tracer, a.machine.memory who.id⟩
    (.running a.machine.tracer.suspension.epoch) _ _ := c.goes_advance _ _
  have hanswer := hgoes.answer hc (h.mindful.minds who.id)
  generalize (c.advance who _ _).2 = stage at hanswer
  cases hanswer with
  | admitted _ _ hq => exact absurd hi (h.not_mem_asked hq hslot)
  | found hslot' => rw [hslot] at hslot'; cases hslot'
  | denied => rfl

end Admitted

/-- Up to the next reset nobody loses a place in line. -/
theorem prefix_step (x : Move) (hx : a.machine.resets x = false) :
    a.asked <+: (a.step x).asked ∧ (a.step x).slots = a.slots := by
  refine ⟨?_, Machine.slotsAfter_of_resets hx⟩
  simp only [step, hx]
  exact prefix_joined _ _ _

theorem prefix_run (xs : List Move) (hn : (a.run xs).resets = a.resets) :
    a.asked <+: (a.run xs).asked ∧ (a.run xs).slots = a.slots := by
  induction xs generalizing a with
  | nil => exact ⟨List.prefix_rfl, rfl⟩
  | cons x xs ih =>
    have hstep := a.resets_le_step x
    have hrun := (a.step x).resets_le_run xs
    rw [run_cons] at hn ⊢
    have hx : a.machine.resets x = false := by
      by_contra hx
      have : (a.step x).resets = a.resets + 1 := if_pos (by simpa using hx)
      omega
    obtain ⟨hasked, hslots⟩ := prefix_step x hx
    obtain ⟨hasked', hslots'⟩ := ih (a := a.step x) (by omega)
    exact ⟨hasked.trans hasked', hslots'.trans hslots⟩

namespace Admitted
variable {i : Nat}

/-- Members stay until the next reset, and who has been refused stays refused. -/
theorem members_run (h : a.Admitted) {xs : List Move} (h' : (a.run xs).Admitted)
    (hn : (a.run xs).resets = a.resets) :
    a.machine.tracer.roster.members.map Prod.fst <+:
      (a.run xs).machine.tracer.roster.members.map Prod.fst ∧
    ∀ i ∈ a.asked, a.machine.tracer.roster.slot? i = none →
      i ∈ (a.run xs).asked ∧ (a.run xs).machine.tracer.roster.slot? i = none := by
  obtain ⟨hasked, hslots⟩ := prefix_run xs hn
  rw [h.members, h'.members, hslots]
  refine ⟨List.IsPrefix.take hasked _, fun i hi hslot => ⟨hasked.subset hi, ?_⟩⟩
  have hlt := h.slots_lt_of_slot?_eq_none hi hslot
  rw [Roster.slot?_eq_none_iff, h'.members, hslots, prefix_take_eq hasked (Nat.le_of_lt hlt),
    ← h.members]
  exact Roster.slot?_eq_none_iff.mp hslot

/-- Members keep their numbers. -/
theorem number_run (h : a.Admitted) {xs : List Move} (h' : (a.run xs).Admitted)
    (hn : (a.run xs).resets = a.resets) {k : Nat}
    (hk : (a.machine.tracer.roster.members.map Prod.fst)[k]? = some i) :
    ∃ c, (a.run xs).machine.tracer.roster.stackOf i = some c ∧ c.no.val.toNat = k + 1 := by
  obtain ⟨hfirst, -⟩ := h.members_run h' hn
  obtain ⟨rest, hrest⟩ := hfirst
  refine h'.seated.stackOf_of_getElem? ?_
  rw [← hrest, List.getElem?_append_left (List.getElem?_eq_some_iff.mp hk).1, hk]

end Admitted

end Admissions

end MethodTrace
