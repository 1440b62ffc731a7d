import MethodTrace.Proofs.Ledger

/-!
# What a full queue has signalled

A record of a hook that fills the queue signals it, and so does a marker that takes the seal off. A
control record and a marker that seals do not: a queue that one of them has filled may be full with no
signal waiting (`control_record_fills_in_silence`). `Watch` keeps beside a queue which move filled it
and whether a signal has been received since it was last empty. All other full queues have a signal
waiting until one is received (`full_queue_has_signalled`).
-/

namespace MethodTrace

/-- Whether a move may put a record into a queue without a signal however full it gets. -/
def QueueMove.isSilent : QueueMove → Bool
  | appendControl .. | close .. => true
  | append _ | appendFrom .. | reopen _ | drain | reset _ | notify | receive => false

/-- Whether a move keeps room in the queue for a record. -/
def QueueMove.Roomy : QueueMove → Prop
  | reset capacity => 1 ≤ capacity
  | _ => True

instance QueueMove.Roomy.decidable : (x : QueueMove) → Decidable x.Roomy
  | reset capacity => inferInstanceAs (Decidable (1 ≤ capacity))
  | append _ | appendFrom .. | appendControl .. | close .. | reopen _ | drain | notify | receive =>
    isTrue trivial

namespace Queue
variable (q : Queue) (x : QueueMove)

theorem signal_signals_ne_nil (s : Signal) : (q.signal s).signals ≠ [] := by
  unfold signal
  split
  · exact List.append_ne_nil_of_right_ne_nil _ (List.cons_ne_nil _ _)
  · rename_i hroom
    intro hnone
    exact hroom (by rw [hnone]; decide)

/-- Signals wait until they are received. -/
theorem signals_step (hx : x ≠ .receive) (h : q.signals ≠ []) : (q.step x).signals ≠ [] := by
  have happend (e : UInt64) (r : Record) : (q.append e r).signals ≠ [] := by
    unfold append
    split
    · rw [signalIfFull]
      split
      · exact signal_signals_ne_nil _ _
      · exact h
    · exact signal_signals_ne_nil _ _
    · exact h
  cases x with
  | append r => exact happend _ r
  | appendFrom e r => exact happend e r
  | appendControl e r => rw [step, appendControl]; split <;> exact h
  | close e m => rw [step, close]; split <;> exact h
  | reopen m =>
    rw [step, reopen]
    split
    · exact signal_signals_ne_nil _ _
    · exact h
  | drain => exact h
  | reset c => exact h
  | notify =>
    rw [step, notify]
    split
    · exact h
    · exact signal_signals_ne_nil _ _
  | receive => exact absurd rfl hx

/-- A record is refused for want of room if the queue is full, and then it is dropped. -/
theorem step_of_isOverflow (h : (q.answer x).isOverflow = true) :
    q.capacity ≤ q.size ∧ q.step x = q.drop := by
  have hverdict (e : UInt64) (r : Record) (h : (Answer.ofVerdict (q.verdict e)).isOverflow = true) :
      q.capacity ≤ q.size ∧ q.append e r = q.drop := by
    unfold append
    unfold verdict at h ⊢
    split_ifs at h ⊢ with hk hfull
    · cases h
    · exact ⟨hfull, rfl⟩
    · cases h
  cases x with
  | append r => exact hverdict _ r h
  | appendFrom e r => exact hverdict e r h
  | appendControl e r =>
    rw [answer, ofVerdict_controlVerdict] at h
    split at h <;> cases h
  | close e m => rw [answer] at h; split at h <;> cases h
  | reopen m => rw [answer] at h; split at h <;> cases h
  | _ => cases h

/-- The queue comes to its capacity in silence only with a control record or a marker that seals it. -/
theorem signals_of_filled (hsilent : x.isSilent = false) (hroom : q.size < q.capacity)
    (hfull : q.capacity ≤ (q.step x).size) (hx : ∀ c, x ≠ .reset c) : (q.step x).signals ≠ [] := by
  have happend (e : UInt64) (r : Record) (hfull : q.capacity ≤ (q.append e r).size) :
      (q.append e r).signals ≠ [] := by
    unfold append at hfull ⊢
    split at hfull
    · have hsize : (q.push r).size = (q.push r).capacity := by
        simp only [size, signalIfFull_records, push, Array.size_push] at hfull hroom ⊢
        omega
      simp only [signalIfFull, if_pos hsize]
      exact signal_signals_ne_nil _ _
    · exact signal_signals_ne_nil _ _
    · exact absurd hroom (Nat.not_lt_of_le hfull)
  cases x with
  | append r => exact happend _ r hfull
  | appendFrom e r => exact happend e r hfull
  | reopen m =>
    rw [step, reopen] at hfull ⊢
    split at hfull
    · rename_i hclosed
      rw [if_pos hclosed]
      exact signal_signals_ne_nil _ _
    · exact absurd hroom (Nat.not_lt_of_le hfull)
  | drain => exact absurd (Nat.zero_le q.size) (Nat.not_le_of_lt (Nat.lt_of_lt_of_le hroom hfull))
  | reset c => exact absurd rfl (hx c)
  | notify =>
    simp only [step, size, notify_records] at hfull
    exact absurd hroom (Nat.not_lt_of_le hfull)
  | receive => exact absurd hroom (Nat.not_lt_of_le hfull)
  | _ => cases hsilent

/-- Records stay in the queue until they are taken or discarded. -/
theorem size_le_step (hdrain : x ≠ .drain) (hreset : ∀ c, x ≠ .reset c) :
    q.size ≤ (q.step x).size := by
  rcases q.effect_step x hdrain hreset with ⟨-, -, -, hr, -⟩ | ⟨-, hr, -⟩ | ⟨-, -, hr, -⟩ <;>
    simp [size, hr]

end Queue

/-! ### A queue since it was last empty -/

structure Watch where
  queue : Queue
  /-- The move with which the queue came to its capacity, if it has. -/
  filler : Option QueueMove
  /-- Whether a signal has been received. -/
  heard : Bool

namespace Watch

def new (capacity : Nat) : Watch := ⟨.new capacity, none, false⟩

/-- Notes whether a move has filled the queue, and whether a signal was received in it. -/
def heed (w : Watch) (x : QueueMove) : Watch where
  queue := w.queue.step x
  filler :=
    if w.queue.size < w.queue.capacity ∧ w.queue.capacity ≤ (w.queue.step x).size then some x
    else w.filler
  heard := w.heard ||
    match x with
    | .receive => w.queue.waiting.isSome
    | _ => false

def step (w : Watch) : QueueMove → Watch
  | .drain => ⟨w.queue.step .drain, none, false⟩
  | .reset capacity => ⟨w.queue.step (.reset capacity), none, false⟩
  | x => w.heed x

def run (w : Watch) (moves : List QueueMove) : Watch := moves.foldl step w

variable {w : Watch}

theorem run_queue (w : Watch) (moves : List QueueMove) :
    (w.run moves).queue = w.queue.run moves := by
  induction moves generalizing w with
  | nil => rfl
  | cons x xs ih =>
    have hstep : (w.step x).queue = w.queue.step x := by cases x <;> rfl
    exact (ih (w.step x)).trans (congrArg (Queue.run · xs) hstep)

/-- A queue that is full has been filled by some move, and if that was none of the silent ones a
signal waits unless one has been received. -/
structure Alert (w : Watch) : Prop where
  room : 1 ≤ w.queue.capacity
  filled : w.queue.capacity ≤ w.queue.size → ∃ x, w.filler = some x
  signalled : ∀ x, w.filler = some x → x.isSilent = false → w.heard = false → w.queue.signals ≠ []

namespace Alert

theorem new {capacity : Nat} (h : 1 ≤ capacity) : (Watch.new capacity).Alert where
  room := h
  filled hfull := absurd (Nat.le_trans h hfull) (Nat.not_succ_le_zero 0)
  signalled _ hx := by cases hx

/-- Where no signal waits that was there before, it has been received. -/
theorem kept {x : QueueMove} (h : w.queue.signals ≠ []) (hheard : (w.heed x).heard = false) :
    (w.heed x).queue.signals ≠ [] := by
  refine w.queue.signals_step x (fun hx => ?_) h
  subst hx
  rcases hs : w.queue.signals with _ | ⟨s, rest⟩
  · exact h hs
  · simp [heed, Queue.waiting, hs] at hheard

theorem heed (h : w.Alert) {x : QueueMove} (hdrain : x ≠ .drain) (hreset : ∀ c, x ≠ .reset c) :
    (w.heed x).Alert := by
  have hcapacity : (w.queue.step x).capacity = w.queue.capacity := by
    rw [Queue.step_capacity]
    cases x with
    | reset c => exact absurd rfl (hreset c)
    | _ => rfl
  have hsize := w.queue.size_le_step x hdrain hreset
  refine ⟨Nat.le_trans h.room (Nat.le_of_eq hcapacity.symm), fun hfull => ?_, fun y hy hsilent hheard => ?_⟩
  · have hfull' : w.queue.capacity ≤ (w.queue.step x).size := hcapacity ▸ hfull
    by_cases hroom : w.queue.size < w.queue.capacity
    · exact ⟨x, if_pos ⟨hroom, hfull'⟩⟩
    · obtain ⟨y, hy⟩ := h.filled (Nat.le_of_not_lt hroom)
      exact ⟨y, (if_neg fun hf => hroom hf.1).trans hy⟩
  · by_cases hf : w.queue.size < w.queue.capacity ∧ w.queue.capacity ≤ (w.queue.step x).size
    · obtain rfl : x = y := Option.some.inj ((if_pos hf).symm.trans hy)
      exact w.queue.signals_of_filled x hsilent hf.1 hf.2 hreset
    · have hy' : w.filler = some y := (if_neg hf).symm.trans hy
      have hbefore : w.heard = false := by
        simp only [Watch.heed, Bool.or_eq_false_iff] at hheard
        exact hheard.1
      exact kept (h.signalled y hy' hsilent hbefore) hheard

theorem step (h : w.Alert) {x : QueueMove} (hx : x.Roomy) : (w.step x).Alert := by
  cases x with
  | drain =>
    exact ⟨h.room, fun hfull => absurd (Nat.le_trans h.room hfull) (Nat.not_succ_le_zero 0), nofun⟩
  | reset c =>
    exact ⟨hx, fun hfull => absurd (Nat.le_trans hx hfull) (Nat.not_succ_le_zero 0), nofun⟩
  | _ => exact h.heed nofun nofun

theorem run (h : w.Alert) {moves : List QueueMove} (hx : ∀ x ∈ moves, x.Roomy) :
    (w.run moves).Alert := by
  induction moves generalizing w with
  | nil => exact h
  | cons x xs ih =>
    obtain ⟨hx, hxs⟩ := List.forall_mem_cons.mp hx
    exact ih (h.step hx) hxs

end Alert

end Watch

/-- Whatever is done to a queue that always has room for a record: if it is full, some move has filled
it since it was last empty, and unless that was a control record or a marker that seals the queue, a
signal waits or has been received since. So it is when a record is refused for want of room, and
behind the refusal a signal waits in any case. -/
theorem full_queue_has_signalled (capacity : Nat) (moves : List QueueMove) (hcapacity : 1 ≤ capacity)
    (hmoves : ∀ x ∈ moves, x.Roomy) :
    let w := (Watch.new capacity).run moves
    w.queue = (Queue.new capacity).run moves ∧
    (w.queue.capacity ≤ w.queue.size → ∃ x, w.filler = some x ∧
      (x.isSilent = false → w.heard = false → w.queue.signals ≠ [])) ∧
    ∀ y, (w.queue.answer y).isOverflow = true → (w.queue.step y).signals ≠ [] ∧
      ∃ x, w.filler = some x ∧ (x.isSilent = false → w.heard = false → w.queue.signals ≠ []) := by
  intro w
  have h : w.Alert := (Watch.Alert.new hcapacity).run hmoves
  have hfull (hsize : w.queue.capacity ≤ w.queue.size) : ∃ x, w.filler = some x ∧
      (x.isSilent = false → w.heard = false → w.queue.signals ≠ []) := by
    obtain ⟨x, hx⟩ := h.filled hsize
    exact ⟨x, hx, h.signalled x hx⟩
  refine ⟨Watch.run_queue _ moves, hfull, fun y hy => ?_⟩
  obtain ⟨hsize, hdrop⟩ := w.queue.step_of_isOverflow y hy
  rw [hdrop]
  exact ⟨Queue.signal_signals_ne_nil _ _, hfull hsize⟩

/-- Two places, one taken by a control record; the record of a hook that takes the other one signals
it. The collector receives that and takes all, and the same happens again. -/
theorem full_queue_has_signalled_again :
    let r : Record := ⟨0, 0, 1, 1, 3, 0⟩
    let moves : List QueueMove := [.appendControl 0 r, .append r, .receive, .drain, .append r,
      .reset 2, .close 1 r, .appendFrom 0 r]
    let w := (Watch.new 2).run moves
    1 ≤ 2 ∧ (∀ x ∈ moves, x.Roomy) ∧ w.queue.capacity ≤ w.queue.size ∧ w.heard = false ∧
      (w.queue.answer (.appendFrom 0 r)).isOverflow = true ∧ w.queue.signals ≠ [] := by
  intro r moves w
  have hmoves : ∀ x ∈ moves, x.Roomy := by decide
  have hfull : w.queue.capacity ≤ w.queue.size := by decide
  obtain ⟨-, hsignalled, -⟩ := full_queue_has_signalled 2 moves (by decide) hmoves
  obtain ⟨x, hx, hsignals⟩ := hsignalled hfull
  obtain rfl : .appendFrom 0 r = x := Option.some.inj hx
  exact ⟨by decide, hmoves, hfull, rfl, rfl, hsignals rfl rfl⟩

/-- A control record fills the only place, and so does a marker that seals the queue. Nothing is
signalled and the queue is full, so that the next record of a hook is refused, if no seal keeps it out
anyway. -/
theorem control_record_fills_in_silence :
    let r : Record := ⟨0, 0, 1, 0, 9, 0⟩
    let w := (Watch.new 1).run [.appendControl 0 r]
    let v := (Watch.new 1).run [.close 1 r]
    (w.queue.capacity ≤ w.queue.size ∧ w.heard = false ∧ w.queue.signals = [] ∧
      w.queue.answer (.append r) = .overflow 1) ∧
    (v.queue.capacity ≤ v.queue.size ∧ v.heard = false ∧ v.queue.signals = [] ∧
      v.queue.answer (.appendFrom 0 r) = .overflow 1) := by
  decide

end MethodTrace
