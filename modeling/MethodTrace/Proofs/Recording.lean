import Mathlib.Data.List.Sort
import MethodTrace.Proofs.Attribution
import MethodTrace.Proofs.Course
import MethodTrace.Proofs.Tracks
import MethodTrace.Proofs.Window

/-!
# Recorded runs

A run during which one collector takes all that is drained, and now and then the names of the threads.
Its timeline holds the records that have left the queue (`Kept`), and under the number of a thread
the name that the thread had when it was registered, if names were taken since (`Kept.lookup_run`).
-/

namespace MethodTrace

/-! ### Numbers and names -/

/-- A thread keeps its number and its name. -/
theorem View.Goes.badge {w : ThreadNo → Scribe} {lossless calm : Prop} {v v' : View} {s : CallStack}
    (h : Goes w lossless calm v v') (hs : v.stack = some s) :
    ∃ s', v'.stack = some s' ∧ s'.no = s.no ∧ s'.name = s.name := by
  cases h with
  | register | strange => cases hs
  | act => cases hs; exact ⟨_, rfl, Call.deed_no .., Call.deed_name ..⟩
  | pause => cases hs; exact ⟨_, rfl, Opening.prepare_no .., Opening.prepare_name ..⟩
  | tell => cases hs; exact ⟨_, rfl, Opening.push_no .., Opening.push_name ..⟩
  | _ => exact ⟨s, hs, rfl, rfl⟩

namespace Machine
variable {m : Machine} {limit : UInt32} {i : Nat} {c : CallStack}

theorem Orderly.badge_step (h : m.Orderly limit) (x : Move) (hx : x.isReset = false)
    (hc : m.stackOf i = some c) :
    ∃ c', (m.step x).stackOf i = some c' ∧ c'.no = c.no ∧ c'.name = c.name := by
  have hgoes : View.Goes m.tracer.scribe False False (m.view i) ((m.step x).view i) :=
    view_step h x hx i False.elim False.elim
  have hs : (m.view i).stack = some (c.withGuard 0) := by
    rw [view, View.of, ← stackOf, hc]
    rfl
  obtain ⟨s', hs', hno, hname⟩ := hgoes.badge hs
  obtain ⟨c', hc', rfl⟩ := Option.map_eq_some_iff.mp hs'
  exact ⟨c', hc', hno, hname⟩

/-- The numbers of the threads are those from 1 on. -/
theorem Orderly.exists_number_iff (h : m.Orderly limit) (n : Nat) :
    (∃ i c, m.stackOf i = some c ∧ c.no.val.toNat = n) ↔ 1 ≤ n ∧ n ≤ m.tracer.roster.size := by
  rw [h.sound.size_eq]
  constructor
  · rintro ⟨i, c, hc, rfl⟩
    obtain ⟨s, hs, hc⟩ := Roster.Sound.slot?_of_stackOf hc
    rw [h.sound.number s c hc]
    exact ⟨Nat.succ_pos s, h.sound.slot_lt hs⟩
  · rintro ⟨hpos, hle⟩
    have hmem : n - 1 ∈ m.tracer.roster.slots := by
      rw [h.sound.slots, List.mem_range]
      omega
    obtain ⟨⟨i, s⟩, hi, rfl⟩ := List.mem_map.mp hmem
    have hslot := Roster.slot?_of_mem h.sound.distinct hi
    obtain ⟨c, hc⟩ := h.sound.stack?_of_slot? hslot
    refine ⟨i, c, (Roster.stackOf_of_slot? hslot).trans hc, ?_⟩
    rw [h.sound.number _ c hc]
    exact Nat.sub_add_cancel hpos

/-- No two threads have the same number. -/
theorem Orderly.eq_of_no (h : m.Orderly limit) {i' : Nat} {c' : CallStack}
    (hc : m.stackOf i = some c) (hc' : m.stackOf i' = some c') (hno : c.no = c'.no) :
    i = i' ∧ c = c' := by
  obtain ⟨s, hs, hc⟩ := Roster.Sound.slot?_of_stackOf hc
  obtain ⟨s', hs', hc'⟩ := Roster.Sound.slot?_of_stackOf hc'
  obtain rfl := h.sound.slot_eq_of_no hc hc' hno
  exact ⟨h.sound.slot?_inj hs hs', Option.some.inj (hc.symm.trans hc')⟩

/-- A marker, but for its time. -/
def markerOf (k : Kind) : Record := Event.encode ⟨k, .none, .all, ⟨0⟩, none⟩

/-- Markers bear no number, all other records that of a thread that is registered. -/
structure Signed (m : Machine) : Prop where
  marker : ∀ r ∈ m.history, r.isMarker = true →
    ∃ k ∈ [Kind.threadsSuspended, .threadsResumed], r.timeless = markerOf k
  other : ∀ r ∈ m.history, r.isMarker = false → ∃ i c, m.stackOf i = some c ∧ c.no.val = r.thread

namespace Signed

theorem new (id : Nat) (s : Settings) (hasHandler : Bool) :
    (Machine.new (.new id s hasHandler)).Signed :=
  ⟨List.forall_mem_nil _, List.forall_mem_nil _⟩

/-- What a call writes carries the number of its thread. -/
theorem thread_of_news (h : m.Orderly limit) (hs : m.Steady) {who : OsThread} {a : Activity}
    {rest : List Activity} (hact : m.active who.id = a :: rest) :
    ∀ r ∈ m.news (.advance who), ∃ c, m.stackOf who.id = some c ∧ c.no.val = r.thread := by
  obtain ⟨drops, hwrote⟩ := hs.advance_wrote hact
  obtain ⟨l, stage, -, hturn, hm⟩ := h.advance_turn hact
  refine hturn.thread (h.slot who.id a (by rw [hact]; exact List.mem_cons_self))
    (fun s hs => h.sound.stack?_of_slot? hs) ?_
  have hrecords := hwrote.posts.records
  rw [Machine.step, hm] at hrecords
  simpa [put] using hrecords

theorem step (h : m.Signed) (ho : m.Orderly limit) (hs : m.Steady) (x : Move)
    (hx : x.isReset = false) : (m.step x).Signed := by
  have hmarker : ∀ r ∈ m.news x, r.isMarker = true →
      ∃ k ∈ [Kind.threadsSuspended, .threadsResumed], r.timeless = markerOf k := by
    have hflow := hs.flow x
    generalize m.step x = m', m.news x = news at hflow
    intro r hr hmarked
    cases hflow with
    | quiet _ hw | advance _ hw => rw [hw.posts.unmarked r hr] at hmarked; cases hmarked
    | suspend => rw [List.mem_singleton.mp hr]; exact ⟨_, .head _, rfl⟩
    | resume => rw [List.mem_singleton.mp hr]; exact ⟨_, .tail _ (.head _), rfl⟩
    | reset | drain => cases hr
  have hother : ∀ r ∈ m.news x, r.isMarker = false →
      ∃ i c, m.stackOf i = some c ∧ c.no.val = r.thread := by
    have hthread : ∀ who a rest, m.active who.id = a :: rest → ∀ r ∈ m.news (.advance who),
        ∃ c, m.stackOf who.id = some c ∧ c.no.val = r.thread :=
      fun _ _ _ hact => thread_of_news ho hs hact
    have hflow := hs.flow x
    generalize hnews : m.news x = news at hflow
    generalize m.step x = m' at hflow
    intro r hr hmarked
    cases hflow with
    | quiet | reset | drain => cases hr
    | @advance who a rest _ _ _ _ hact =>
      obtain ⟨c, hc, hno⟩ := hthread who a rest hact r (hnews ▸ hr)
      exact ⟨_, c, hc, hno⟩
    | suspend | resume =>
      rw [List.mem_singleton.mp hr, Tracer.marker, Record.isMarker_encode] at hmarked
      cases hmarked
  refine ⟨fun r hr hmarked => ?_, fun r hr hmarked => ?_⟩
  · rw [hs.history_step] at hr
    exact (List.mem_append.mp hr).elim (h.marker r · hmarked) (hmarker r · hmarked)
  · rw [hs.history_step] at hr
    obtain ⟨i, c, hc, hno⟩ :=
      (List.mem_append.mp hr).elim (h.other r · hmarked) (hother r · hmarked)
    obtain ⟨c', hc', hno', -⟩ := ho.badge_step x hx hc
    exact ⟨i, c', hc', by rw [hno', hno]⟩

theorem run (h : m.Signed) (ho : m.Orderly limit) (hs : m.Steady) {xs : List Move}
    (hx : ∀ x ∈ xs, x.isReset = false) : (m.run xs).Signed := by
  induction xs generalizing m with
  | nil => exact h
  | cons x xs ih =>
    obtain ⟨hx, hxs⟩ := List.forall_mem_cons.mp hx
    exact ih (h.step ho hs x hx) (ho.step x hx) (hs.step x) hxs

end Signed

/-- Records leave the queue when it is drained. -/
theorem Steady.past_step (h : m.Steady) {x : Move} (hx : x.isReset = false) (hdrain : x ≠ .drain) :
    (m.step x).past = m.past := by
  have hflow := h.flow x
  generalize m.step x = m', m.news x = news at hflow
  cases hflow with
  | quiet _ hw | advance _ hw => exact hw.past
  | suspend | resume => rfl
  | reset => cases hx
  | drain => exact absurd rfl hdrain

end Machine

/-! ### A collector at work -/

/-- What happens in a recorded run: a move, or the names of the threads are taken. -/
inductive Occasion where
  | move (x : Move)
  | name

namespace Occasion

def isName : Occasion → Bool
  | move _ => false
  | name => true

def move? : Occasion → Option Move
  | move x => some x
  | name => none

end Occasion

/-- The moves of a recorded run. -/
def movesOf (xs : List Occasion) : List Move := xs.filterMap Occasion.move?

theorem mem_movesOf_cons {x : Occasion} {xs : List Occasion} {y : Move} :
    y ∈ movesOf (x :: xs) ↔ y ∈ x.move? ∨ y ∈ movesOf xs := by
  cases x <;> simp [movesOf, Occasion.move?, eq_comm]

structure Recording where
  machine : Machine
  collector : Collector

namespace Recording

/-- The collector takes what is drained. -/
def step (r : Recording) : Occasion → Recording
  | .move .drain => ⟨r.machine.drain, r.collector.collect r.machine.tracer.queue.content⟩
  | .move x => ⟨r.machine.step x, r.collector⟩
  | .name => ⟨r.machine, r.collector.nameThreads r.machine.tracer⟩

def run (r : Recording) (xs : List Occasion) : Recording := xs.foldl step r

@[simp] theorem run_nil (r : Recording) : r.run [] = r := rfl

@[simp] theorem run_cons (r : Recording) (x : Occasion) (xs : List Occasion) :
    r.run (x :: xs) = (r.step x).run xs := rfl

/-- Whether names are taken while a thread is registered. -/
def names (i : Nat) : Recording → List Occasion → Bool
  | _, [] => false
  | r, x :: xs => x.isName && (r.machine.stackOf i).isSome || names i (r.step x) xs

/-- The names that have been taken. -/
def labels (r : Recording) : List (ThreadNo × String) :=
  r.collector.timeline.elim [] Timeline.threadNames

variable {r : Recording} {limit : UInt32} {i : Nat} {c : CallStack} {start : Timeline}

theorem machine_step_move (r : Recording) (x : Move) :
    (r.step (.move x)).machine = r.machine.step x := by
  cases x <;> rfl

theorem step_move_of_ne (r : Recording) {x : Move} (hx : x ≠ .drain) :
    r.step (.move x) = ⟨r.machine.step x, r.collector⟩ := by
  cases x <;> first | rfl | exact absurd rfl hx

/-- The timeline holds what has left the queue, and under a number the name of the thread that has the
number, or none. -/
structure Kept (limit : UInt32) (start : Timeline) (r : Recording) : Prop where
  orderly : r.machine.Orderly limit
  steady : r.machine.Steady
  signed : r.machine.Signed
  timeline : r.collector.timeline = some ((start.takeAll r.machine.past).relabel r.labels)
  known : ∀ n s, r.labels.lookup n = some s →
    ∃ i c, r.machine.stackOf i = some c ∧ c.no = n ∧ c.name = some s

namespace Kept

theorem new (id : Nat) (s : Settings) (hasHandler listener : Bool) (hstart : start.threadNames = []) :
    Kept s.threadSlots start ⟨.new (.new id s hasHandler), .new (some start) listener⟩ where
  orderly := .new id s hasHandler
  steady := .new id s hasHandler
  signed := .new id s hasHandler
  timeline := rfl
  known n name hn := by simp [labels, Collector.new, hstart] at hn

/-- A thread that is registered is listed under its number, once. -/
theorem mem_names {m : Machine} (h : m.Orderly limit) (hc : m.stackOf i = some c) :
    c.no ∈ m.tracer.roster.names.map Prod.fst ∧
      ∀ p ∈ m.tracer.roster.names, p.1 = c.no → p.2 = c.name := by
  obtain ⟨s, hs, hc⟩ := Roster.Sound.slot?_of_stackOf hc
  have hmem : s ∈ m.tracer.roster.slots := List.mem_map_of_mem (Roster.mem_of_slot? hs)
  have hname : (c.no, c.name) ∈ m.tracer.roster.names :=
    List.mem_filterMap.mpr ⟨s, hmem, by rw [hc]; rfl⟩
  refine ⟨List.mem_map_of_mem hname, fun p hp hno => ?_⟩
  obtain ⟨s', -, hp⟩ := List.mem_filterMap.mp hp
  obtain ⟨c', hc', rfl⟩ := Option.map_eq_some_iff.mp hp
  obtain rfl := h.sound.slot_eq_of_no hc' hc hno
  exact congrArg CallStack.name (Option.some.inj (hc'.symm.trans hc))

theorem exists_of_mem_names {m : Machine} (h : m.Orderly limit) {n : ThreadNo}
    (hn : n ∈ m.tracer.roster.names.map Prod.fst) : ∃ i c, m.stackOf i = some c ∧ c.no = n := by
  obtain ⟨p, hp, rfl⟩ := List.mem_map.mp hn
  obtain ⟨s, hs, hp⟩ := List.mem_filterMap.mp hp
  obtain ⟨c, hc, rfl⟩ := Option.map_eq_some_iff.mp hp
  obtain ⟨⟨i, s⟩, hi, rfl⟩ := List.mem_map.mp hs
  have hslot := Roster.slot?_of_mem h.sound.distinct hi
  exact ⟨i, c, (Roster.stackOf_of_slot? hslot).trans hc, rfl⟩

/-- No number is under another name than that of its thread. -/
theorem lookup_eq (h : r.Kept limit start) (hc : r.machine.stackOf i = some c) :
    c.name.or (r.labels.lookup c.no) = c.name := by
  cases hname : c.name with
  | some s => rfl
  | none =>
    cases hl : r.labels.lookup c.no with
    | none => rfl
    | some s =>
      obtain ⟨i', c', hc', hno, hname'⟩ := h.known _ s hl
      obtain ⟨-, rfl⟩ := h.orderly.eq_of_no hc' hc hno
      rw [hname] at hname'
      cases hname'

/-- Names are taken under the numbers of the threads that are registered. -/
theorem lookup_name (h : r.Kept limit start) (n : ThreadNo) :
    (∃ i c, r.machine.stackOf i = some c ∧ c.no = n ∧
      (Timeline.labelled r.machine.tracer.roster.names r.labels).lookup n = c.name) ∨
    (Timeline.labelled r.machine.tracer.roster.names r.labels).lookup n = r.labels.lookup n := by
  by_cases hn : n ∈ r.machine.tracer.roster.names.map Prod.fst
  · obtain ⟨i, c, hc, rfl⟩ := exists_of_mem_names h.orderly hn
    obtain ⟨-, hall⟩ := mem_names h.orderly hc
    refine .inl ⟨i, c, hc, rfl, ?_⟩
    rw [Timeline.lookup_labelled hall, if_pos hn, h.lookup_eq hc]
  · have hall : ∀ p ∈ r.machine.tracer.roster.names, p.1 = n → p.2 = none :=
      fun p hp hpn => absurd (hpn ▸ List.mem_map_of_mem hp) hn
    refine .inr ?_
    rw [Timeline.lookup_labelled hall, if_neg hn]

theorem timeline_name (h : r.Kept limit start) :
    (r.step .name).collector.timeline = some ((start.takeAll r.machine.past).relabel
      (Timeline.labelled r.machine.tracer.roster.names r.labels)) := by
  rw [Recording.step, Collector.nameThreads_timeline, h.timeline]
  rfl

theorem timeline_drain (h : r.Kept limit start) :
    (r.step (.move .drain)).collector.timeline =
      some ((start.takeAll r.machine.history).relabel r.labels) := by
  rw [Recording.step, Collector.collect_timeline, h.timeline, Option.map_some,
    Timeline.takeAll_relabel, ← Timeline.takeAll_append]
  rfl

theorem labels_name (h : r.Kept limit start) :
    (r.step .name).labels = Timeline.labelled r.machine.tracer.roster.names r.labels := by
  rw [labels, h.timeline_name]
  rfl

theorem labels_move (h : r.Kept limit start) (x : Move) : (r.step (.move x)).labels = r.labels := by
  by_cases hx : x = .drain
  · rw [hx, labels, h.timeline_drain]
    rfl
  · rw [step_move_of_ne r hx]
    rfl

theorem step (h : r.Kept limit start) (x : Occasion) (hx : ∀ y ∈ x.move?, y.isReset = false) :
    (r.step x).Kept limit start := by
  cases x with
  | name =>
    refine ⟨h.orderly, h.steady, h.signed, by rw [h.labels_name]; exact h.timeline_name,
      fun n s hs => ?_⟩
    rw [h.labels_name] at hs
    rcases h.lookup_name n with ⟨i, c, hc, hno, hl⟩ | hl
    · exact ⟨i, c, hc, hno, hl.symm.trans hs⟩
    · exact h.known n s (hl.symm.trans hs)
  | move x =>
    have hx0 := hx x rfl
    have hm := machine_step_move r x
    refine ⟨hm ▸ h.orderly.step x hx0, hm ▸ h.steady.step x,
      hm ▸ h.signed.step h.orderly h.steady x hx0, ?_, fun n s hs => ?_⟩
    · rw [h.labels_move, hm]
      by_cases hdrain : x = .drain
      · rw [hdrain]
        exact h.timeline_drain
      · rw [step_move_of_ne r hdrain, h.steady.past_step hx0 hdrain]
        exact h.timeline
    · rw [h.labels_move] at hs
      obtain ⟨i, c, hc, hno, hname⟩ := h.known n s hs
      obtain ⟨c', hc', hno', hname'⟩ := h.orderly.badge_step x hx0 hc
      exact ⟨i, c', hm ▸ hc', hno'.trans hno, hname'.trans hname⟩

theorem run (h : r.Kept limit start) {xs : List Occasion}
    (hx : ∀ y ∈ movesOf xs, y.isReset = false) : (r.run xs).Kept limit start := by
  induction xs generalizing r with
  | nil => exact h
  | cons x xs ih =>
    refine ih (h.step x fun y hy => hx y (mem_movesOf_cons.mpr (.inl hy))) fun y hy => ?_
    exact hx y (mem_movesOf_cons.mpr (.inr hy))

theorem stackOf_step (h : r.Kept limit start) (x : Occasion) (hx : ∀ y ∈ x.move?, y.isReset = false)
    (hc : r.machine.stackOf i = some c) : ∃ c', (r.step x).machine.stackOf i = some c' := by
  cases x with
  | name => exact ⟨c, hc⟩
  | move x =>
    obtain ⟨c', hc', -⟩ := h.orderly.badge_step x (hx x rfl) hc
    exact ⟨c', machine_step_move r x ▸ hc'⟩

end Kept

end Recording

end MethodTrace
