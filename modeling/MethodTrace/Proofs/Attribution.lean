import MethodTrace.Proofs.Chronicle
import MethodTrace.Proofs.Remembrance
import MethodTrace.Proofs.Turn

/-!
# Whose records they are

Numbers are given anew after a reset. A call that has begun since then holds the slot that its thread
has now, and what it writes carries the number of that slot (`Attributed`). A call that began before
a reset goes on with the slot that it found, and still writes under the old number.
-/

namespace MethodTrace

namespace Roster
variable {r : Roster} {q : Quota} {limit : UInt32} {i : Nat} {c : CallStack}

/-- The thread that is registered under a number. -/
def holder? (r : Roster) (no : UInt32) : Option Nat :=
  (r.members.find? fun p => (r.stack? p.2).any (·.no.val = no)).map Prod.fst

/-- No two members share a number. -/
theorem Seated.slot_eq_of_no (h : r.Seated q limit) {s s' : Nat} {c c' : CallStack}
    (hs : s ∈ r.slots) (hs' : s' ∈ r.slots) (hc : r.stack? s = some c) (hc' : r.stack? s' = some c')
    (hno : c.no = c'.no) : s = s' := by
  obtain ⟨hbase, -⟩ := h.mem_slots.mp hs
  obtain ⟨hbase', -⟩ := h.mem_slots.mp hs'
  have h1 := h.number s c hbase hc
  have h2 := h.number s' c' hbase' hc'
  rw [hno] at h1
  omega

theorem Seated.holder?_eq (h : r.Seated q limit) (hc : r.stackOf i = some c) :
    r.holder? c.no.val = some i := by
  obtain ⟨s, hslot, hs⟩ := Option.bind_eq_some_iff.mp hc
  have hmem := mem_of_slot? hslot
  rcases hfind : r.members.find? fun p => (r.stack? p.2).any (·.no.val = c.no.val) with _ | p
  · have := List.find?_eq_none.mp hfind (i, s) hmem
    simp [hs] at this
  · have hp := List.mem_of_find?_eq_some hfind
    have hno := List.find?_some hfind
    obtain ⟨c', hc', hno⟩ := (Option.any_eq_true _ _).mp hno
    have heq : p.2 = s := h.slot_eq_of_no (List.mem_map_of_mem hp) (Seated.slot_mem hslot) hc' hs
      (congrArg ThreadNo.mk (of_decide_eq_true hno))
    have hpi := h.slot?_of_mem (i := p.1) (s := p.2) hp
    rw [heq] at hpi
    rw [holder?, hfind, Option.map_some, h.slot?_inj hpi hslot]

end Roster

namespace Machine
variable {m : Machine} {x : Move} {i : Nat}

/-- Members keep their slots until a reset. -/
theorem slot?_step (hx : m.resets x = false) {s : Slot}
    (hslot : m.tracer.roster.slot? i = some s) : (m.step x).tracer.roster.slot? i = some s := by
  have hseats := m.seats_step x
  generalize m.step x = m' at hseats
  cases hseats with
  | same _ hr _ => exact (hr.slot? i).trans hslot
  | @enlist who a rest epoch q m' hact hstage hc' hnone hq hr hq' =>
    have hne : i ≠ who.id := by
      rintro rfl
      rw [hnone] at hslot
      cases hslot
    rw [hr, Roster.slot?_enlist_of_ne hne, hslot]
  | clear hs => rw [resets, hs] at hx; cases hx

/-- And their numbers. -/
theorem stackOf_step (hx : m.resets x = false) {c : CallStack}
    (hc : m.tracer.roster.stackOf i = some c) :
    ∃ c', (m.step x).tracer.roster.stackOf i = some c' ∧ c'.no = c.no := by
  obtain ⟨s, hslot, hs⟩ := Option.bind_eq_some_iff.mp hc
  have hslot' := slot?_step hx hslot
  rw [Roster.stackOf_of_slot? hslot']
  have hseats := m.seats_step x
  generalize m.step x = m' at hseats
  cases hseats with
  | same _ hr _ => exact hr.symm.stack? hs
  | enlist hact hstage hc' hnone hq hr hq' =>
    rw [hr]
    exact ⟨c, (Roster.stack?_enlist_of_lt (Roster.lt_size_of_stack? hs)).trans hs, rfl⟩
  | clear hs => rw [resets, hs] at hx; cases hx

end Machine

namespace Call.Turn
variable {who : OsThread} {l l' : Local} {stage stage' : Stage}

/-- A call holds the slot of its thread. -/
theorem slot? (h : Turn who l stage l' stage')
    (hslot : ∀ s, stage.slot? = some s → l.tracer.roster.slot? who.id = some s) :
    ∀ s, stage'.slot? = some s → l'.tracer.roster.slot? who.id = some s := by
  intro s hs
  cases h with
  | find _ _ hslot' _ => exact (hslot' s hs).elim (hslot s) id
  | enlist hnone _ =>
    cases hs
    exact Roster.slot?_enlist_self who hnone
  | @rework t t' memory stage stage' slot hst hst' hr _ _ =>
    rw [hr.slot?, hst' s hs]
    exact hslot slot hst

/-- What a call writes carries the number of its thread. -/
theorem thread (h : Turn who l stage l' stage')
    (hslot : ∀ s, stage.slot? = some s → l.tracer.roster.slot? who.id = some s)
    (hstack : ∀ s, l.tracer.roster.slot? who.id = some s → ∃ c, l.tracer.roster.stack? s = some c)
    {rs : List Record}
    (hrs : l'.tracer.queue.records.toList = l.tracer.queue.records.toList ++ rs) :
    ∀ r ∈ rs, ∃ c, l.tracer.roster.stackOf who.id = some c ∧ c.no.val = r.thread := by
  intro r hr
  cases h with
  | find | enlist =>
    have hnil : rs = [] := by simpa using hrs
    rw [hnil] at hr
    cases hr
  | @rework t t' memory stage stage' slot hst hst' hrework _ _ =>
    obtain ⟨rs', hrs', hthread⟩ := hrework.records
    obtain rfl : rs = rs' := List.append_cancel_left (hrs.symm.trans hrs')
    obtain ⟨c, hc⟩ := hstack slot (hslot slot hst)
    exact ⟨c, (Roster.stackOf_of_slot? (hslot slot hst)).trans hc, (hthread r hr c hc).symm⟩

end Call.Turn

namespace Chronicle
variable {h : Chronicle}

/-- Calls that have begun since the last reset, and what they have written. -/
structure Attributed (h : Chronicle) : Prop where
  faithful : h.Faithful
  seated : ∃ limit, h.machine.tracer.roster.Seated h.machine.tracer.quota limit
  mindful : h.machine.Mindful h.resets fun _ => True
  calls : ∀ i, List.Forall₂
    (fun a t => h.lastReset ≤ t → ∀ s, a.stage.slot? = some s →
      h.machine.tracer.roster.slot? i = some s) (h.machine.active i) (h.begun i)
  records : ∀ e ∈ h.entries, h.lastReset ≤ e.moment → e.record.thread ≠ 0 →
    ∃ i t, e.writer = .hook i t ∧ (e.begun i).head? = some t ∧ (h.lastReset ≤ t →
      ∃ c, h.machine.tracer.roster.stackOf i = some c ∧ c.no.val = e.record.thread)

theorem resets_le_run (h : Chronicle) (xs : List Move) : h.resets ≤ (h.run xs).resets := by
  induction xs generalizing h with
  | nil => exact Nat.le_refl _
  | cons x xs ih =>
    refine Nat.le_trans ?_ (ih (h.step x))
    change h.resets ≤ if h.machine.resets x then h.resets + 1 else h.resets
    split <;> omega

namespace Attributed

theorem new (id : Nat) (s : Settings) (hasHandler : Bool) :
    (Chronicle.new (.new id s hasHandler)).Attributed where
  faithful := .new id s hasHandler
  seated := ⟨s.threadSlots, .new id s.threadSlots⟩
  mindful := .new id s hasHandler _
  calls _ := .nil
  records := List.forall_mem_nil _

/-- A call that has begun since the last reset goes on. -/
theorem turn (ha : h.Attributed) {who : OsThread} {a : Activity} {rest : List Activity} {t : Nat}
    {begun : List Nat} (hact : h.machine.active who.id = a :: rest)
    (hbegun : h.begun who.id = t :: begun) (ht : h.lastReset ≤ t) {l : Local} {stage : Stage}
    (hgoes : a.call.Goes who ⟨h.machine.tracer, h.machine.memory who.id⟩ a.stage l stage) :
    Call.Turn who ⟨h.machine.tracer, h.machine.memory who.id⟩ a.stage l stage ∧
      ∀ s, a.stage.slot? = some s → h.machine.tracer.roster.slot? who.id = some s := by
  have hcalls := ha.calls who.id
  rw [hact, hbegun, List.forall₂_cons] at hcalls
  have hover := ha.faithful.steady.going who.id a (by rw [hact]; exact List.mem_cons_self)
  exact ⟨hgoes.turn hover (ha.mindful.minds who.id).recalls, hcalls.1 ht⟩

theorem calls_step (ha : h.Attributed) {x : Move} (hx : h.machine.resets x = false) :
    ∀ i, List.Forall₂ (fun a t => h.lastReset ≤ t → ∀ s, a.stage.slot? = some s →
      (h.machine.step x).tracer.roster.slot? i = some s)
      ((h.step x).machine.active i) ((h.step x).begun i) := by
  refine forall₂_step x ha.calls (fun i a t hat ht s hs => Machine.slot?_step hx (hat ht s hs))
    (fun who c counted l stage _ hgoes _ s hs => ?_)
    fun who a rest t l stage _ hact ht hgoes hroster hlast => ?_
  · cases hgoes <;> cases hs
  · obtain ⟨begun, hbegun⟩ := List.head?_eq_some_iff.mp ht
    obtain ⟨hturn, hslot⟩ := ha.turn hact hbegun hlast hgoes
    rw [hroster]
    exact hturn.slot? hslot

/-- What a call writes that has begun since the last reset. -/
theorem thread (ha : h.Attributed) {who : OsThread} {a : Activity} {rest : List Activity} {t : Nat}
    {begun : List Nat} (hact : h.machine.active who.id = a :: rest)
    (hbegun : h.begun who.id = t :: begun) (ht : h.lastReset ≤ t) {rs : List Record}
    (hrs : (h.machine.step (.advance who)).tracer.queue.records.toList =
      h.machine.tracer.queue.records.toList ++ rs) :
    ∀ r ∈ rs, ∃ c, h.machine.tracer.roster.stackOf who.id = some c ∧ c.no.val = r.thread := by
  obtain ⟨limit, hseated⟩ := ha.seated
  obtain ⟨l, stage, hgoes, heq⟩ := Machine.advance_goes hact
  obtain ⟨hturn, hslot⟩ := ha.turn hact hbegun ht hgoes
  refine hturn.thread hslot (fun s hs => ?_) (by simpa [heq, Machine.put] using hrs)
  obtain ⟨c, hc, -⟩ := hseated.stack?_of_mem (Roster.Seated.slot_mem hs)
  exact ⟨c, hc⟩

theorem records_step (ha : h.Attributed) {x : Move} (hx : h.machine.resets x = false) :
    ∀ r ∈ h.machine.news x, r.thread ≠ 0 → ∃ i t, h.writer x = .hook i t ∧
      (h.begun i).head? = some t ∧ (h.lastReset ≤ t → ∃ c, (h.machine.step x).tracer.roster.stackOf i = some c ∧
        c.no.val = r.thread) := by
  intro r hr hthread
  have hstack : ∀ {i c}, h.machine.tracer.roster.stackOf i = some c → c.no.val = r.thread →
      ∃ c, (h.machine.step x).tracer.roster.stackOf i = some c ∧ c.no.val = r.thread := by
    intro i c hc hno
    obtain ⟨c', hc', hno'⟩ := Machine.stackOf_step hx hc
    exact ⟨c', hc', by rw [hno', hno]⟩
  have hnews := h.machine.news_eq (x := x)
  have hflow := ha.faithful.steady.flow x
  generalize hm' : h.machine.step x = m', h.machine.news x = news at hflow hr hstack hnews ⊢
  cases hflow with
  | quiet | reset | drain => cases hr
  | suspend | resume =>
    rw [List.mem_singleton.mp hr] at hthread
    exact absurd rfl hthread
  | @advance who a rest _ _ _ _ hact hw =>
    obtain ⟨t, begun, hbegun⟩ := ha.faithful.exists_begun hact
    refine ⟨who.id, t, Faithful.writer_advance hbegun, by rw [hbegun]; rfl, fun ht => ?_⟩
    obtain ⟨c, hc, hno⟩ := ha.thread hact hbegun ht (by rw [hm']; exact hw.posts.records) r hr
    exact hstack hc hno

theorem step (ha : h.Attributed) (x : Move) (hn : (h.step x).resets < UInt64.size) :
    (h.step x).Attributed := by
  obtain ⟨limit, hseated⟩ := ha.seated
  have hfaithful := ha.faithful.step x
  have hlast : (h.step x).lastReset = if h.machine.resets x then h.moment + 1 else h.lastReset := rfl
  refine ⟨hfaithful, ⟨_, Machine.seated_step hseated x⟩,
    ha.mindful.step x hn (fun _ _ => id) (fun _ _ => trivial) fun _ _ _ _ _ _ _ _ _ _ => trivial,
    fun i => ?_, fun e he hmoment hthread => ?_⟩
  · cases hx : h.machine.resets x with
    | true =>
      -- all calls in progress began before
      rw [hlast, hx, if_pos rfl]
      have hbegun := hfaithful.forall₂ i fun t ht => Nat.not_le_of_lt (hfaithful.begun_lt i t ht)
      exact hbegun.imp fun _ _ hlt hle => absurd hle hlt
    | false =>
      rw [hlast, hx]
      exact ha.calls_step hx i
  · cases hx : h.machine.resets x with
    | true =>
      rw [hlast, hx, if_pos rfl] at hmoment
      exact absurd (hfaithful.moment e he) (Nat.not_lt_of_le hmoment)
    | false =>
      rw [hlast, hx, if_neg Bool.false_ne_true] at hmoment ⊢
      rcases List.mem_append.mp he with he | he
      · obtain ⟨i, t, hwriter, hhead, hholds⟩ := ha.records e he hmoment hthread
        refine ⟨i, t, hwriter, hhead, fun ht => ?_⟩
        obtain ⟨c, hc, hno⟩ := hholds ht
        obtain ⟨c', hc', hno'⟩ := Machine.stackOf_step hx hc
        exact ⟨c', hc', by rw [hno', hno]⟩
      · obtain ⟨r, hr, rfl⟩ := List.mem_map.mp he
        exact ha.records_step hx r hr hthread

theorem run (ha : h.Attributed) (xs : List Move) (hn : (h.run xs).resets < UInt64.size) :
    (h.run xs).Attributed := by
  induction xs generalizing h with
  | nil => exact ha
  | cons x xs ih => exact ih (ha.step x (Nat.lt_of_le_of_lt (resets_le_run _ xs) hn)) hn

end Attributed

end Chronicle

/-- Whatever threads do: what has been written since the last reset with a number of a thread has
been written by the innermost call in progress of a thread, and if that call had begun since the
reset, by the thread that is registered under the number now. -/
theorem records_are_attributed_since_the_reset (id : Nat) (s : Settings) (hasHandler : Bool)
    (xs : List Move) :
    let h := (Chronicle.new (.new id s hasHandler)).run xs
    let m := (Machine.new (.new id s hasHandler)).run xs
    h.resets < UInt64.size →
    (h.machine = m ∧ h.entries.map Entry.record = m.history) ∧
    ∀ e ∈ h.entries, h.lastReset ≤ e.moment → e.record.thread ≠ 0 →
      ∃ i t, e.writer = .hook i t ∧ (e.begun i).head? = some t ∧
        (h.lastReset ≤ t → m.tracer.roster.holder? e.record.thread = some i) := by
  intro h m hn
  have ha : h.Attributed := (Chronicle.Attributed.new id s hasHandler).run xs hn
  have hm : h.machine = m := Chronicle.run_machine _ xs
  obtain ⟨limit, hseated⟩ := ha.seated
  refine ⟨⟨hm, hm ▸ ha.faithful.history⟩, fun e he hmoment hthread => ?_⟩
  obtain ⟨i, t, hwriter, hhead, hholds⟩ := ha.records e he hmoment hthread
  refine ⟨i, t, hwriter, hhead, fun ht => ?_⟩
  obtain ⟨c, hc, hno⟩ := hholds ht
  rw [← hm, ← hno]
  exact hseated.holder?_eq hc

/-- Number 1 is given anew after a reset, and its second thread has written under it since. -/
theorem records_are_attributed_since_the_reset_anew :
    let first : OsThread := ⟨0, none⟩
    let second : OsThread := ⟨1, none⟩
    let c : Call := ⟨.markerEntry, ⟨1⟩, none⟩
    let xs : List Move := .call first c true :: List.replicate 6 (.advance first) ++
      [.suspend, .reset ⟨1, 8, 8⟩, .resume, .call second c true] ++
      List.replicate 6 (.advance second)
    let h := (Chronicle.new (.new 0 .default true)).run xs
    h.resets < UInt64.size ∧ ∃ e ∈ h.entries, h.lastReset ≤ e.moment ∧ e.record.thread = 1 ∧
      e.writer = .hook 1 10 ∧
      ((Machine.new (.new 0 .default true)).run xs).tracer.roster.holder? 1 = some 1 := by
  intro first second c xs h
  have hresets : h.resets < UInt64.size := by decide +kernel
  have hreset : h.lastReset = 9 := by decide +kernel
  have hlast : h.entries.getLast?.map (fun e => (e.record.thread, e.writer, e.moment)) =
    some (1, .hook 1 10, 14) := by decide +kernel
  obtain ⟨-, hall⟩ := records_are_attributed_since_the_reset 0 .default true xs hresets
  change ∀ e ∈ h.entries, h.lastReset ≤ e.moment → _ at hall
  refine ⟨hresets, ?_⟩
  generalize h.entries = entries, h.lastReset = lastReset at hreset hlast hall ⊢
  obtain ⟨e, he, heq⟩ := Option.map_eq_some_iff.mp hlast
  obtain ⟨hthread, hwriter, hmoment⟩ : e.record.thread = 1 ∧ e.writer = .hook 1 10 ∧ e.moment = 14 := by
    simpa using heq
  have hmem := List.mem_of_getLast? he
  obtain ⟨i, t, hwriter', -, hholds⟩ := hall e hmem (by omega) (by simp [hthread])
  rw [hwriter] at hwriter'
  cases hwriter'
  exact ⟨e, hmem, by omega, hthread, hwriter, hthread ▸ hholds (by omega)⟩

/-- While the entry of thread 0 tells a first invocation, all is reset and resumed, and thread 1 is
registered as number 1. Then thread 0 writes under that number too. -/
theorem record_of_a_call_from_before_the_reset :
    let first : OsThread := ⟨0, none⟩
    let second : OsThread := ⟨1, none⟩
    let c : Call := ⟨.rootEntry, ⟨1⟩, none⟩
    let xs : List Move := .call first c true :: List.replicate 4 (.advance first) ++
      [.suspend, .reset ⟨4, 8, 4⟩, .resume, .call second c true] ++
      List.replicate 7 (.advance second) ++ List.replicate 2 (.advance first)
    let h := (Chronicle.new (.new 0 .default true)).run xs
    let m := (Machine.new (.new 0 .default true)).run xs
    ¬ ∀ e ∈ h.entries, h.lastReset ≤ e.moment → e.record.thread ≠ 0 →
      ∃ i t, e.writer = .hook i t ∧ m.tracer.roster.holder? e.record.thread = some i := by
  intro first second c xs h m hall
  have hreset : h.lastReset = 7 := by decide +kernel
  have hlast : h.entries.getLast?.map (fun e => (e.record.thread, e.writer, e.moment)) =
    some (1, .hook 0 0, 16) := by decide +kernel
  have hholder : m.tracer.roster.holder? 1 = some 1 := by decide +kernel
  generalize h.entries = entries, h.lastReset = lastReset at hreset hlast hall
  obtain ⟨e, he, heq⟩ := Option.map_eq_some_iff.mp hlast
  obtain ⟨hthread, hwriter, hmoment⟩ : e.record.thread = 1 ∧ e.writer = .hook 0 0 ∧ e.moment = 16 := by
    simpa using heq
  obtain ⟨i, t, hwriter', hi⟩ := hall e (List.mem_of_getLast? he) (by omega) (by simp [hthread])
  rw [hwriter] at hwriter'
  cases hwriter'
  rw [hthread, hholder] at hi
  cases hi

end MethodTrace
