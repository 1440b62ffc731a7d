import MethodTrace.Proofs.Progress

/-!
# The seal and the hooks in flight

While tracing is suspended the queue is sealed at the epoch of the suspension, otherwise not at all
(`Coupled`), and every hook in flight noted its epoch before the suspension in force (`Precedes`).
So the seal keeps none of them out: neither when a suspension and a queue are used on their own
(`Gate`) nor in a run of a tracer (`Machine.InTime`).
-/

namespace MethodTrace

/-- A suspension and a queue that are closed and opened together, after `n` suspensions. -/
structure Coupled (b : Suspension) (q : Queue) (n : Nat) : Prop where
  epoch : b.epoch.toNat = n
  closedFrom : q.closedFrom = if b.suspended then some b.epoch else none

/-- Whether a hook that noted `e` started before the suspension in force, if there is one. -/
def Suspension.Precedes (b : Suspension) (e : UInt64) : Prop :=
  e.toNat + (if b.suspended then 1 else 0) ≤ b.epoch.toNat

namespace Coupled
variable {b b' : Suspension} {q q' : Queue} {n : Nat} {r r' : Roster} {slots : List Slot}
  {e : UInt64}

theorem congr (h : Coupled b q n) (hq : q'.closedFrom = q.closedFrom) : Coupled b q' n :=
  ⟨h.epoch, hq.trans h.closedFrom⟩

theorem keepsOut (h : Coupled b q n) (he : b.Precedes e) : q.keepsOut e = false := by
  rw [Queue.keepsOut, h.closedFrom]
  unfold Suspension.Precedes at he
  cases hb : b.suspended with
  | false => rfl
  | true =>
    have : ¬ b.epoch ≤ e := by rw [UInt64.le_iff_toNat_le]; simp only [hb, ↓reduceIte] at he; omega
    simp [this]

theorem suspend (h : Coupled b q n) (hn : n + 1 < UInt64.size)
    (hs : b.suspend r slots = .ok (b', r')) (marker : Record) :
    Coupled b' (q.close b'.epoch marker) (n + 1) ∧ ∀ e, b.Precedes e → b'.Precedes e := by
  unfold Suspension.suspend at hs
  split at hs
  · cases hs
  · rename_i hb
    cases hs
    have hopen : q.isClosed = false := by simp [Queue.isClosed, h.closedFrom, hb]
    have hepoch : (b.epoch + 1).toNat = n + 1 := by
      rw [UInt64.toNat_add, h.epoch]
      exact Nat.mod_eq_of_lt hn
    refine ⟨⟨hepoch, by simp [Queue.close_closedFrom _ _ _ hopen]⟩, fun e he => ?_⟩
    simp only [Suspension.Precedes, hb, Bool.false_eq_true, ↓reduceIte] at he ⊢
    rw [hepoch, ← h.epoch]
    omega

theorem resume (h : Coupled b q n) (hs : b.resume r = .ok (b', r')) (marker : Record) :
    Coupled b' (q.reopen marker) n ∧ ∀ e, b.Precedes e → b'.Precedes e := by
  unfold Suspension.resume at hs
  split at hs
  · rename_i hb
    cases hs
    have hclosed : q.isClosed = true := by simp [Queue.isClosed, h.closedFrom, hb]
    refine ⟨⟨h.epoch, by simp [Queue.reopen_closedFrom _ _ hclosed]⟩, fun e he => ?_⟩
    simp only [Suspension.Precedes, hb, Bool.false_eq_true, ↓reduceIte] at he ⊢
    omega
  · cases hs

theorem precedes_openEpoch (he : b.openEpoch = some e) : b.Precedes e := by
  unfold Suspension.openEpoch at he
  split at he
  · cases he
  · rename_i hb
    cases he
    simp [Suspension.Precedes, hb]

end Coupled

/-! ### A suspension and a queue on their own -/

/-- Beside the suspension and the queue, the epochs that the hooks in flight have noted. -/
structure Gate where
  suspension : Suspension
  roster : Roster
  queue : Queue
  inFlight : List UInt64
  /-- How often tracing has been suspended. -/
  suspensions : Nat

/-- Hooks in flight are known by their places in `Gate.inFlight`. -/
inductive GateMove where
  | start
  | append (hook : Nat) (r : Record)
  | appendControl (hook : Nat) (r : Record)
  | finish (hook : Nat)
  | suspend (slots : List Slot) (marker : Record)
  | resume (marker : Record)
  | drain
  | reset (capacity : Nat)

namespace Gate

def new (roster : Roster) (capacity : Nat) : Gate := ⟨.new, roster, .new capacity, [], 0⟩

/-- What a hook in flight is told of the record that it appends. -/
def answer (g : Gate) : GateMove → Option (Except QueueError Unit)
  | .append hook _ => g.inFlight[hook]?.map g.queue.verdict
  | .appendControl hook _ => g.inFlight[hook]?.map g.queue.controlVerdict
  | _ => none

def step (g : Gate) : GateMove → Gate
  | .start =>
    match g.suspension.openEpoch with
    | none => g
    | some epoch => { g with inFlight := epoch :: g.inFlight }
  | .append hook r =>
    match g.inFlight[hook]? with
    | none => g
    | some epoch => { g with queue := g.queue.append epoch r }
  | .appendControl hook r =>
    match g.inFlight[hook]? with
    | none => g
    | some epoch => { g with queue := g.queue.appendControl epoch r }
  | .finish hook => { g with inFlight := g.inFlight.eraseIdx hook }
  | .suspend slots marker =>
    match g.suspension.suspend g.roster slots with
    | .error _ => g
    | .ok (b, roster) =>
      { g with
        suspension := b
        roster := roster
        queue := g.queue.close b.epoch marker
        suspensions := g.suspensions + 1 }
  | .resume marker =>
    match g.suspension.resume g.roster with
    | .error _ => g
    | .ok (b, roster) =>
      { g with suspension := b, roster := roster, queue := g.queue.reopen marker }
  | .drain => { g with queue := g.queue.drain }
  | .reset capacity => { g with queue := g.queue.reset capacity }

def run (g : Gate) (moves : List GateMove) : Gate := moves.foldl step g

/-- The seal keeps no hook in flight out. -/
structure InTime (g : Gate) : Prop where
  coupled : Coupled g.suspension g.queue g.suspensions
  precedes : ∀ e ∈ g.inFlight, g.suspension.Precedes e

variable {g : Gate}

theorem suspensions_le_step (x : GateMove) : g.suspensions ≤ (g.step x).suspensions := by
  cases x <;> simp only [step] <;> (try split) <;> simp

theorem suspensions_le_run (xs : List GateMove) : g.suspensions ≤ (g.run xs).suspensions := by
  induction xs generalizing g with
  | nil => exact Nat.le_refl _
  | cons x xs ih => exact Nat.le_trans (suspensions_le_step x) ih

theorem InTime.new (roster : Roster) (capacity : Nat) : (Gate.new roster capacity).InTime :=
  ⟨⟨rfl, rfl⟩, by simp [Gate.new]⟩

theorem InTime.step (h : g.InTime) (x : GateMove) (hn : (g.step x).suspensions < UInt64.size) :
    (g.step x).InTime := by
  cases x with
  | start =>
    simp only [Gate.step]
    split
    · exact h
    · rename_i epoch he
      refine ⟨h.coupled, fun e hmem => ?_⟩
      rcases List.mem_cons.mp hmem with rfl | hmem
      · exact Coupled.precedes_openEpoch he
      · exact h.precedes e hmem
  | append hook r =>
    simp only [Gate.step]
    split
    · exact h
    · exact ⟨h.coupled.congr (by simp), h.precedes⟩
  | appendControl hook r =>
    simp only [Gate.step]
    split
    · exact h
    · exact ⟨h.coupled.congr (by simp), h.precedes⟩
  | finish hook => exact ⟨h.coupled, fun e he => h.precedes e (List.mem_of_mem_eraseIdx he)⟩
  | suspend slots marker =>
    simp only [Gate.step] at hn ⊢
    split
    · exact h
    · rename_i b roster hs
      rw [hs] at hn
      obtain ⟨hc, hp⟩ := h.coupled.suspend hn hs marker
      exact ⟨hc, fun e he => hp e (h.precedes e he)⟩
  | resume marker =>
    simp only [Gate.step]
    split
    · exact h
    · rename_i b roster hs
      obtain ⟨hc, hp⟩ := h.coupled.resume hs marker
      exact ⟨hc, fun e he => hp e (h.precedes e he)⟩
  | drain => exact ⟨h.coupled.congr rfl, h.precedes⟩
  | reset capacity => exact ⟨h.coupled.congr rfl, h.precedes⟩

theorem InTime.run (h : g.InTime) (xs : List GateMove)
    (hn : (g.run xs).suspensions < UInt64.size) : (g.run xs).InTime := by
  induction xs generalizing g with
  | nil => exact h
  | cons x xs ih => exact ih (h.step x (Nat.lt_of_le_of_lt (suspensions_le_run xs) hn)) hn

theorem InTime.answer_ne_sealed (h : g.InTime) (x : GateMove) :
    g.answer x ≠ some (.error .sealed) := by
  cases x with
  | append hook r =>
    simp only [answer, ne_eq, Option.map_eq_some_iff, not_exists, not_and]
    intro e he
    exact Queue.verdict_ne_sealed (h.coupled.keepsOut (h.precedes e (List.mem_of_getElem? he)))
  | appendControl hook r =>
    simp only [answer, ne_eq, Option.map_eq_some_iff, not_exists, not_and]
    intro e he
    rw [Queue.controlVerdict_eq_ok (h.coupled.keepsOut (h.precedes e (List.mem_of_getElem? he)))]
    simp
  | _ => simp [answer]

end Gate

/-! ### Runs of a tracer -/

/-- The epoch that a call has noted. -/
def Stage.epoch? : Stage → Option UInt64
  | .running epoch | .enrolled epoch .. | .cleared epoch .. | .guarding epoch ..
  | .expanding epoch .. => some epoch
  | .called | .closing _ | .returned _ => none

namespace Call.Goes
variable {c : Call} {who : OsThread} {l l' : Local} {stage stage' : Stage}

theorem suspension (h : c.Goes who l stage l' stage') :
    l'.tracer.suspension = l.tracer.suspension := by
  cases h with
  | act => exact act_touches.suspension
  | tell => exact (enter_touches _ _).suspension
  | _ => rfl

theorem closedFrom (h : c.Goes who l stage l' stage') :
    l'.tracer.queue.closedFrom = l.tracer.queue.closedFrom := by
  cases h with
  | act => exact act_touches.closedFrom
  | tell => exact (enter_touches _ _).closedFrom
  | _ => rfl

theorem epoch? (h : c.Goes who l stage l' stage') {e : UInt64} (he : stage'.epoch? = some e) :
    stage.epoch? = some e ∨ l.tracer.suspension.openEpoch = some e := by
  cases h with
  | start h => cases he; exact .inr h
  | @act t _ epoch slot fresh =>
    rcases act_stage t epoch slot fresh with hs | ⟨o, hs⟩ <;> rw [hs] at he
    · cases he
    · exact .inl he
  | _ => first | exact .inl he | cases he

/-- The queue's refusals are counted where they happen, and no call returns them. -/
theorem settle_sealedOut (h : c.Goes who l stage l' stage') (hr : stage.isOver = false)
    (a : Activity) (t : Tracer) :
    (a.settle t stage').tally.sealedOut = t.tally.sealedOut := by
  have count : ∀ r : Except HookError Unit, (∀ e, r ≠ .error (.queue e)) →
      (t.countResult r).tally.sealedOut = t.tally.sealedOut := by
    intro r hr
    rcases r with (_ | _ | _ | e) | _
    · rfl
    · rfl
    · rfl
    · exact absurd rfl (hr e)
    · rfl
  have settle : ∀ r : Except HookError Unit, (∀ e, r ≠ .error (.queue e)) →
      (a.settle t (.returned r)).tally.sealedOut = t.tally.sealedOut := by
    intro r hr
    unfold Activity.settle
    dsimp only
    split
    · exact count r hr
    · rfl
  cases h with
  | ended => cases hr
  | act => rcases act_stage .. with hs | ⟨o, hs⟩ <;> rw [hs] <;> rfl
  | denied => exact settle _ fun e => by split <;> simp
  | start | find | register | clear | guard | tell => rfl
  | _ => exact settle _ fun e => by simp

/-- A call that the seal does not keep out is not counted as sealed out. -/
theorem sealedOut (h : c.Goes who l stage l' stage')
    (hk : ∀ e, stage.epoch? = some e → l.tracer.queue.keepsOut e = false) :
    l'.tracer.tally.sealedOut = l.tracer.tally.sealedOut := by
  cases h with
  | act => exact act_touches.sealedOut (hk _ rfl)
  | tell => exact (enter_touches _ _).sealedOut (hk _ rfl)
  | _ => rfl

end Call.Goes

namespace Machine

/-- In a run of a tracer the seal keeps no call in progress out, and none is counted so. -/
structure InTime (m : Machine) : Prop where
  coupled : Coupled m.tracer.suspension m.tracer.queue m.suspensions
  precedes : ∀ i, ∀ a ∈ m.active i, ∀ e, a.stage.epoch? = some e → m.tracer.suspension.Precedes e
  going : ∀ i, ∀ a ∈ m.active i, a.stage.isOver = false
  sealedOut : m.tracer.tally.sealedOut = 0

variable {m : Machine}

theorem suspensions_le_step (x : Move) : m.suspensions ≤ (m.step x).suspensions := by
  cases x with
  | call who c counted => simp only [step, call, note]; split <;> (try split) <;> exact Nat.le_refl _
  | advance who => simp only [step, advance]; split <;> exact Nat.le_refl _
  | suspend => simp only [step, suspend]; split <;> simp
  | resume => simp only [step, resume]; split <;> simp
  | reset l => simp only [step, reset]; split <;> simp
  | elsewhere i r => simp only [step]; split <;> exact Nat.le_refl _
  | _ => exact Nat.le_refl _

theorem suspensions_le_run (xs : List Move) : m.suspensions ≤ (m.run xs).suspensions := by
  induction xs generalizing m with
  | nil => exact Nat.le_refl _
  | cons x xs ih => exact Nat.le_trans (suspensions_le_step x) ih

namespace InTime

theorem new (id : Nat) (s : Settings) (hasHandler : Bool) :
    (Machine.new (.new id s hasHandler)).InTime :=
  ⟨⟨rfl, rfl⟩, by simp [Machine.new], by simp [Machine.new], rfl⟩

theorem congr {m' : Machine} (h : m.InTime) (hs : m'.tracer.suspension = m.tracer.suspension)
    (hq : m'.tracer.queue.closedFrom = m.tracer.queue.closedFrom)
    (ht : m'.tracer.tally = m.tracer.tally) (ha : m'.active = m.active)
    (hn : m'.suspensions = m.suspensions) : m'.InTime where
  coupled := by rw [hs, hn]; exact h.coupled.congr hq
  precedes := by rw [hs, ha]; exact h.precedes
  going := by rw [ha]; exact h.going
  sealedOut := by rw [ht]; exact h.sealedOut

theorem proceed (h : m.InTime) {who : OsThread} {a : Activity} {rest : List Activity}
    (ha : ∀ e, a.stage.epoch? = some e → m.tracer.suspension.Precedes e)
    (hover : a.stage.isOver = false) (hrest : ∀ b ∈ rest, b ∈ m.active who.id) :
    (m.proceed who a rest).InTime := by
  obtain ⟨l, stage, hgoes, hm⟩ := m.proceed_goes who a rest
  rw [hm]
  have hs := hgoes.suspension
  have hk : ∀ e, a.stage.epoch? = some e → m.tracer.queue.keepsOut e = false :=
    fun e he => h.coupled.keepsOut (ha e he)
  refine ⟨?_, fun i b hb e he => ?_, fun i b hb => ?_, ?_⟩
  · simp only [put, Activity.settle_suspension, Activity.settle_queue, hs]
    exact h.coupled.congr hgoes.closedFrom
  · simp only [put, Activity.settle_suspension, hs, Function.update_apply] at hb ⊢
    split at hb
    · rcases List.mem_append.mp hb with hb | hb
      · rw [(Activity.eq_of_mem_next hb).1] at he
        exact (hgoes.epoch? he).elim (ha e) Coupled.precedes_openEpoch
      · exact h.precedes _ b (hrest b hb) e he
    · exact h.precedes i b hb e he
  · simp only [put, Function.update_apply] at hb
    split at hb
    · rcases List.mem_append.mp hb with hb | hb
      · rw [(Activity.eq_of_mem_next hb).1, (Activity.eq_of_mem_next hb).2]
      · exact h.going _ b (hrest b hb)
    · exact h.going i b hb
  · simp only [put]
    rw [hgoes.settle_sealedOut hover, hgoes.sealedOut hk, h.sealedOut]

theorem call (h : m.InTime) (who : OsThread) (c : Call) (counted : Bool) :
    (m.call who c counted).InTime := by
  unfold Machine.call
  split
  · have hnote : (m.note who.id c).InTime :=
      h.congr (by simp) (by simp) (by simp) (by simp) (by simp)
    refine hnote.proceed (by simp [Stage.epoch?]) rfl fun b hb => ?_
    rw [note_active]
    exact hb
  · exact h

theorem advance (h : m.InTime) (who : OsThread) : (m.advance who).InTime := by
  unfold Machine.advance
  split
  · exact h
  · rename_i a rest hact
    have ha : a ∈ m.active who.id := by rw [hact]; exact List.mem_cons_self
    exact h.proceed (h.precedes _ a ha) (h.going _ a ha) fun b hb => by
      rw [hact]; exact List.mem_cons_of_mem _ hb

theorem suspendSlots (h : m.InTime) {slots : List Slot}
    (hn : (m.suspendSlots slots).suspensions < UInt64.size) : (m.suspendSlots slots).InTime := by
  unfold Machine.suspendSlots at hn ⊢
  split
  · rename_i t ht
    rw [ht] at hn
    obtain ⟨b, roster, hs, rfl⟩ := Tracer.suspendSlots_eq_ok ht
    obtain ⟨hc, hp⟩ := h.coupled.suspend hn hs (m.tracer.marker .threadsSuspended)
    exact ⟨hc, fun i a ha e he => hp e (h.precedes i a ha e he), h.going, h.sealedOut⟩
  · exact h

theorem resume (h : m.InTime) : m.resume.InTime := by
  unfold Machine.resume
  split
  · rename_i t ht
    obtain ⟨b, roster, hs, rfl⟩ := Tracer.resume_eq_ok ht
    obtain ⟨hc, hp⟩ := h.coupled.resume hs (m.tracer.marker .threadsResumed)
    exact ⟨hc, fun i a ha e he => hp e (h.precedes i a ha e he), h.going, h.sealedOut⟩
  · exact h

theorem step (h : m.InTime) (x : Move) (hn : (m.step x).suspensions < UInt64.size) :
    (m.step x).InTime := by
  cases x with
  | call who c counted => exact h.call who c counted
  | advance who => exact h.advance who
  | suspend => exact h.suspendSlots hn
  | resume => exact h.resume
  | reset l =>
    simp only [Machine.step, reset]
    split
    · rename_i t ht
      obtain ⟨-, rfl⟩ := Tracer.reset_eq_ok ht
      exact h.congr rfl rfl rfl rfl rfl
    · exact h
  | drain => exact h.congr rfl rfl rfl rfl rfl
  | notify => exact h.congr rfl (by simp [Machine.step, Tracer.notify]) rfl rfl rfl
  | receive => exact h.congr rfl rfl rfl rfl rfl
  | exclude i => exact h.congr rfl rfl rfl rfl rfl
  | look i => exact h.congr rfl rfl rfl rfl rfl
  | elsewhere i r =>
    simp only [Machine.step]
    split
    · exact h
    · exact h.congr rfl rfl rfl rfl rfl

theorem run (h : m.InTime) (xs : List Move) (hn : (m.run xs).suspensions < UInt64.size) :
    (m.run xs).InTime := by
  induction xs generalizing m with
  | nil => exact h
  | cons x xs ih => exact ih (h.step x (Nat.lt_of_le_of_lt (suspensions_le_run xs) hn)) hn

end InTime

end Machine

/-- No record of a hook in flight is refused for a seal, unless the epochs have run out: whatever
hooks there are and however they take turns with suspending, resuming, draining and resetting, and
also when all this is done while first invocations are told. -/
theorem nothing_is_sealed_out :
    (∀ (roster : Roster) (capacity : Nat) (xs : List GateMove) (x : GateMove),
      ((Gate.new roster capacity).run xs).suspensions < UInt64.size →
      ((Gate.new roster capacity).run xs).answer x ≠ some (.error .sealed)) ∧
    ∀ (id : Nat) (s : Settings) (hasHandler : Bool) (xs : List Move),
      ((Machine.new (.new id s hasHandler)).run xs).suspensions < UInt64.size →
      ((Machine.new (.new id s hasHandler)).run xs).tracer.tally.sealedOut = 0 :=
  ⟨fun roster capacity xs x hn => ((Gate.InTime.new roster capacity).run xs hn).answer_ne_sealed x,
    fun id s hasHandler xs hn => ((Machine.InTime.new id s hasHandler).run xs hn).sealedOut⟩

/-- A hook that has started writes its record behind the marker of a suspension. -/
theorem nothing_is_sealed_out_behind_marker :
    let r : Record := ⟨0, 0, 0, 0, 7, 0⟩
    let g := (Gate.new (.new 0) 4).run [.start, .suspend [] r]
    let m := (Machine.new (.new 0 .default false)).run
      [.call ⟨0, none⟩ ⟨.markerEntry, ⟨1⟩, none⟩ true, .advance ⟨0, none⟩, .advance ⟨0, none⟩,
        .advance ⟨0, none⟩, .suspend, .advance ⟨0, none⟩]
    (g.suspensions < UInt64.size ∧ g.queue.isClosed = true ∧
      g.answer (.append 0 r) ≠ some (.error .sealed)) ∧
    (m.suspensions < UInt64.size ∧ m.history.length = 3 ∧ m.tracer.tally.sealedOut = 0) :=
  ⟨⟨by decide, by decide, nothing_is_sealed_out.1 _ _ _ _ (by decide)⟩,
    ⟨by decide, by decide, nothing_is_sealed_out.2 _ _ _ _ (by decide)⟩⟩

end MethodTrace
