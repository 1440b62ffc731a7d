import Mathlib.Algebra.Ring.Nat
import MethodTrace.Proofs.Footprint

/-!
# What the queue takes in and gives out

A `QueueLog` watches a queue from its last reset on: what it has accepted, what has been taken from it,
and how many records it has refused for want of room. Control records pass a full queue, so its length
is not bounded by its capacity; the number of records of hooks in it is (`Exact.room`).
-/

namespace MethodTrace

inductive QueueMove where
  /-- Appends a record of a hook whose start nobody knows. -/
  | append (r : Record)
  | appendFrom (epoch : UInt64) (r : Record)
  | appendControl (epoch : UInt64) (r : Record)
  | close (epoch : UInt64) (marker : Record)
  | reopen (marker : Record)
  | drain
  | reset (capacity : Nat)
  | notify
  | receive

/-- The record that is offered, and whether it is one of a hook. -/
def QueueMove.offer? : QueueMove → Option (Bool × Record)
  | append r | appendFrom _ r => some (true, r)
  | appendControl _ r | close _ r | reopen r => some (false, r)
  | drain | reset _ | notify | receive => none

namespace Queue

/-- How a queue answers. Markers are declined if there is, or is no, seal already. -/
inductive Answer where
  | accepted
  | sealed
  | overflow (capacity : Nat)
  | declined
  | done
deriving DecidableEq

def Answer.ofVerdict : Except QueueError Unit → Answer
  | .ok _ => .accepted
  | .error .sealed => .sealed
  | .error (.overflow n) => .overflow n

def Answer.isRefusal : Answer → Bool
  | .sealed | .overflow _ | .declined => true
  | .accepted | .done => false

def Answer.isOverflow : Answer → Bool
  | .overflow _ => true
  | _ => false

def answer (q : Queue) : QueueMove → Answer
  | .append _ => .ofVerdict (q.verdict lastEpoch)
  | .appendFrom epoch _ => .ofVerdict (q.verdict epoch)
  | .appendControl epoch _ => .ofVerdict (q.controlVerdict epoch)
  | .close .. => if q.isClosed then .declined else .accepted
  | .reopen _ => if q.isClosed then .accepted else .declined
  | .drain | .reset _ | .notify | .receive => .done

def step (q : Queue) : QueueMove → Queue
  | .append r => q.append lastEpoch r
  | .appendFrom epoch r => q.append epoch r
  | .appendControl epoch r => q.appendControl epoch r
  | .close epoch marker => q.close epoch marker
  | .reopen marker => q.reopen marker
  | .drain => q.drain
  | .reset capacity => q.reset capacity
  | .notify => q.notify
  | .receive => q.receive

def run (q : Queue) (moves : List QueueMove) : Queue := moves.foldl step q

/-! ### One move -/

variable (q : Queue) (x : QueueMove)

theorem exists_le_iff (e : UInt64) : (∃ s ∈ q.closedFrom, s ≤ e) ↔ q.keepsOut e = true := by
  simp [keepsOut, Option.any_eq_true]

theorem keepsOut_lastEpoch : q.keepsOut lastEpoch = q.isClosed := by
  have hlast (s : UInt64) : s ≤ lastEpoch := by
    have := s.toNat_lt
    exact UInt64.le_iff_toNat_le.mpr (show s.toNat ≤ 0xffffffffffffffff by omega)
  rw [keepsOut, isClosed]
  rcases q.closedFrom with _ | s
  · rfl
  · exact decide_eq_true (hlast s)

theorem ofVerdict_verdict (e : UInt64) : Answer.ofVerdict (q.verdict e) =
    if ∃ s ∈ q.closedFrom, s ≤ e then .sealed
    else if q.capacity ≤ q.records.size then .overflow q.capacity else .accepted := by
  simp only [verdict, exists_le_iff, size]
  split_ifs with hk hfull
  · rfl
  · exact congrArg Answer.ofVerdict (if_pos hfull)
  · exact congrArg Answer.ofVerdict (if_neg hfull)

theorem ofVerdict_controlVerdict (e : UInt64) : Answer.ofVerdict (q.controlVerdict e) =
    if ∃ s ∈ q.closedFrom, s ≤ e then .sealed else .accepted := by
  simp only [controlVerdict, exists_le_iff]
  split_ifs <;> rfl

theorem step_closedFrom : (q.step x).closedFrom =
    match x with
    | .close epoch _ => some (q.closedFrom.getD epoch)
    | .reopen _ => none
    | _ => q.closedFrom := by
  cases x with
  | append r => exact q.append_closedFrom ..
  | appendFrom e r => exact q.append_closedFrom ..
  | appendControl e r => exact q.appendControl_closedFrom ..
  | close e m =>
    cases hq : q.closedFrom <;> simp [step, close, isClosed, push, hq]
  | reopen m =>
    cases hq : q.closedFrom <;> simp [step, reopen, isClosed, push, hq]
  | drain => rfl
  | reset c => rfl
  | notify => exact q.notify_closedFrom
  | receive => rfl

theorem step_capacity : (q.step x).capacity =
    match x with
    | .reset capacity => capacity
    | _ => q.capacity := by
  cases x with
  | append r => exact q.append_capacity ..
  | appendFrom e r => exact q.append_capacity ..
  | appendControl e r => exact q.appendControl_capacity ..
  | close e m => simp only [step, close]; split <;> rfl
  | reopen m => simp only [step, reopen]; split <;> simp [push]
  | drain => rfl
  | reset c => rfl
  | notify => exact q.notify_capacity
  | receive => rfl

/-- What becomes of what is offered. -/
inductive Effect (q : Queue) (x : QueueMove) (q' : Queue) : Prop
  | accepted {b : Bool} {r : Record} (ha : q.answer x = .accepted) (hx : x.offer? = some (b, r))
    (hroom : b = true → q.size < q.capacity) (hr : q'.records = q.records.push r)
    (hd : q'.dropped = q.dropped)
  | dropped {n : Nat} (ha : q.answer x = .overflow n) (hr : q'.records = q.records)
    (hd : q'.dropped = q.dropped + 1)
  | kept (ha : q.answer x ≠ .accepted) (ho : (q.answer x).isOverflow = false)
    (hr : q'.records = q.records) (hd : q'.dropped = q.dropped)

theorem effect_append (e : UInt64) (r : Record) (ha : q.answer x = .ofVerdict (q.verdict e))
    (hx : x.offer? = some (true, r)) : Effect q x (q.append e r) := by
  unfold append
  rcases hv : q.verdict e with (n | _) | _
  all_goals rw [hv] at ha
  · exact .dropped ha (by simp [drop]) (by simp [drop])
  · exact .kept (by rw [ha]; decide) (by rw [ha]; rfl) rfl rfl
  · refine .accepted ha hx (fun _ => ?_) (by simp [push]) (by simp [push])
    unfold verdict at hv
    split_ifs at hv with hk hfull
    omega

theorem effect_step (hdrain : x ≠ .drain) (hreset : ∀ c, x ≠ .reset c) : Effect q x (q.step x) := by
  cases x with
  | append r => exact q.effect_append _ _ r rfl rfl
  | appendFrom e r => exact q.effect_append _ e r rfl rfl
  | appendControl e r =>
    cases hk : q.keepsOut e with
    | true =>
      have ha : q.answer (.appendControl e r) = .sealed := by
        simp [answer, controlVerdict, hk, Answer.ofVerdict]
      exact .kept (by rw [ha]; decide) (by rw [ha]; rfl) (by simp [step, appendControl, hk])
        (by simp [step])
    | false =>
      have ha : q.answer (.appendControl e r) = .accepted := by
        simp [answer, controlVerdict, hk, Answer.ofVerdict]
      exact .accepted ha rfl (by simp) (by simp [step, appendControl, hk, push]) (by simp [step])
  | close e m =>
    cases hc : q.isClosed with
    | true =>
      have ha : q.answer (.close e m) = .declined := by simp [answer, hc]
      exact .kept (by rw [ha]; decide) (by rw [ha]; rfl) (by simp [step, close, hc])
        (by simp [step, close, hc])
    | false =>
      have ha : q.answer (.close e m) = .accepted := by simp [answer, hc]
      exact .accepted ha rfl (by simp) (by simp [step, close, hc, push])
        (by simp [step, close, hc, push])
  | reopen m =>
    cases hc : q.isClosed with
    | true =>
      have ha : q.answer (.reopen m) = .accepted := by simp [answer, hc]
      exact .accepted ha rfl (by simp) (by simp [step, reopen, hc, push])
        (by simp [step, reopen, hc, push])
    | false =>
      have ha : q.answer (.reopen m) = .declined := by simp [answer, hc]
      exact .kept (by rw [ha]; decide) (by rw [ha]; rfl) (by simp [step, reopen, hc])
        (by simp [step, reopen, hc])
  | drain => exact absurd rfl hdrain
  | reset c => exact absurd rfl (hreset c)
  | notify => exact .kept (fun h => by cases h) rfl q.notify_records q.notify_dropped
  | receive => exact .kept (fun h => by cases h) rfl rfl rfl

/-- What is refused changes nothing but the count of the dropped records. -/
theorem step_of_isRefusal (h : (q.answer x).isRefusal = true) :
    (q.step x).records = q.records ∧ (q.step x).capacity = q.capacity ∧
      (q.step x).closedFrom = q.closedFrom := by
  refine ⟨?_, ?_, ?_⟩
  · have heffect : Effect q x (q.step x) :=
      q.effect_step x (by rintro rfl; cases h) (by rintro c rfl; cases h)
    rcases heffect with ⟨ha, -, -, -, -⟩ | ⟨-, hr, -⟩ | ⟨-, -, hr, -⟩
    · rw [ha] at h
      cases h
    · exact hr
    · exact hr
  · rw [step_capacity]
    cases x with
    | reset c => cases h
    | _ => rfl
  · rw [step_closedFrom]
    cases x with
    | close e m =>
      rcases hc : q.closedFrom with _ | s
      · simp [answer, isClosed, hc, Answer.isRefusal] at h
      · rfl
    | reopen m =>
      rcases hc : q.closedFrom with _ | s
      · rfl
      · simp [answer, isClosed, hc, Answer.isRefusal] at h
    | _ => rfl

/-- By what rules a queue answers, and what its moves leave as it is. -/
structure Rules (q : Queue) : Prop where
  append : ∀ r, q.answer (.append r) =
    if q.closedFrom.isSome then .sealed
    else if q.capacity ≤ q.records.size then .overflow q.capacity else .accepted
  appendFrom : ∀ e r, q.answer (.appendFrom e r) =
    if ∃ s ∈ q.closedFrom, s ≤ e then .sealed
    else if q.capacity ≤ q.records.size then .overflow q.capacity else .accepted
  appendControl : ∀ e r, q.answer (.appendControl e r) =
    if ∃ s ∈ q.closedFrom, s ≤ e then .sealed else .accepted
  close : ∀ e m, q.answer (.close e m) = if q.closedFrom.isSome then .declined else .accepted
  reopen : ∀ m, q.answer (.reopen m) = if q.closedFrom.isSome then .accepted else .declined
  refused : ∀ x, (q.answer x).isRefusal → (q.step x).records = q.records ∧
    (q.step x).capacity = q.capacity ∧ (q.step x).closedFrom = q.closedFrom
  closedFrom : ∀ x, (q.step x).closedFrom =
    match x with
    | .close epoch _ => some (q.closedFrom.getD epoch)
    | .reopen _ => none
    | _ => q.closedFrom
  capacity : ∀ x, (q.step x).capacity =
    match x with
    | .reset capacity => capacity
    | _ => q.capacity

theorem rules : q.Rules where
  append _ := by
    rw [answer, verdict, keepsOut_lastEpoch, isClosed, size]
    split_ifs <;> rfl
  appendFrom e _ := q.ofVerdict_verdict e
  appendControl e _ := q.ofVerdict_controlVerdict e
  close _ _ := rfl
  reopen _ := rfl
  refused := q.step_of_isRefusal
  closedFrom := q.step_closedFrom
  capacity := q.step_capacity

end Queue

/-! ### A queue since its last reset -/

structure QueueLog where
  queue : Queue
  /-- What has been accepted, and whether it is a record of a hook. -/
  accepted : List (Bool × Record)
  batches : List Drained
  /-- How many records were refused for want of room before each of the batches. -/
  overflows : List Nat
  /-- How many were since the last batch. -/
  pending : Nat
  /-- How many were since the reset. -/
  refused : Nat

namespace QueueLog

def new (capacity : Nat) : QueueLog := ⟨.new capacity, [], [], [], 0, 0⟩

/-- Notes how a move is answered. -/
def heed (l : QueueLog) (x : QueueMove) : QueueLog :=
  { l with
    queue := l.queue.step x
    accepted := l.accepted ++ if l.queue.answer x = .accepted then x.offer?.toList else []
    pending := l.pending + if (l.queue.answer x).isOverflow then 1 else 0
    refused := l.refused + if (l.queue.answer x).isOverflow then 1 else 0 }

def step (l : QueueLog) : QueueMove → QueueLog
  | .drain =>
    { l with
      queue := l.queue.step .drain
      batches := l.batches ++ [l.queue.content]
      overflows := l.overflows ++ [l.pending]
      pending := 0 }
  | .reset capacity => ⟨l.queue.step (.reset capacity), [], [], [], 0, 0⟩
  | x => l.heed x

def run (l : QueueLog) (moves : List QueueMove) : QueueLog := moves.foldl step l

/-- What has been accepted and not been taken. -/
def buffered (l : QueueLog) : List (Bool × Record) :=
  l.accepted.drop (l.batches.map (·.records.size)).sum

variable {l : QueueLog}

theorem step_queue (l : QueueLog) (x : QueueMove) : (l.step x).queue = l.queue.step x := by
  cases x <;> rfl

theorem run_queue (l : QueueLog) (moves : List QueueMove) :
    (l.run moves).queue = l.queue.run moves := by
  induction moves generalizing l with
  | nil => rfl
  | cons x xs ih => exact (ih (l.step x)).trans (congrArg (Queue.run · xs) (l.step_queue x))

structure Exact (l : QueueLog) : Prop where
  records : l.batches.flatMap (·.records.toList) ++ l.queue.records.toList = l.accepted.map Prod.snd
  room : l.buffered.countP Prod.fst ≤ l.queue.capacity
  dropped : l.batches.map (·.dropped) = l.overflows.map UInt64.ofNat
  pending : l.queue.dropped = .ofNat l.pending
  refused : l.overflows.sum + l.pending = l.refused

namespace Exact

theorem new (capacity : Nat) : Exact (.new capacity) where
  records := rfl
  room := Nat.zero_le _
  dropped := rfl
  pending := rfl
  refused := rfl

theorem taken (h : l.Exact) :
    l.accepted.length = (l.batches.map (·.records.size)).sum + l.queue.size := by
  have := congrArg List.length h.records
  simpa [List.length_flatMap, Queue.size] using this.symm

theorem buffered_map (h : l.Exact) : l.buffered.map Prod.snd = l.queue.records.toList := by
  rw [buffered, List.map_drop, ← h.records]
  exact List.drop_left' (by rw [List.length_flatMap]; rfl)

theorem length_buffered (h : l.Exact) : l.buffered.length = l.queue.size := by
  rw [buffered, List.length_drop, h.taken]
  omega

/-- A record of a hook finds room only if the queue is short, and then so are the records of hooks. -/
theorem accept (h : l.Exact) {q : Queue} {b : Bool} {r : Record}
    (hroom : b = true → l.queue.size < l.queue.capacity) (hr : q.records = l.queue.records.push r)
    (hd : q.dropped = l.queue.dropped) (hcapacity : q.capacity = l.queue.capacity) :
    Exact { l with queue := q, accepted := l.accepted ++ [(b, r)] } := by
  refine ⟨?_, ?_, h.dropped, hd.trans h.pending, h.refused⟩
  · show _ ++ q.records.toList = _
    rw [hr, Array.toList_push, ← List.append_assoc, h.records, List.map_append]
    rfl
  · have htaken : (l.batches.map (·.records.size)).sum ≤ l.accepted.length := by
      rw [h.taken]
      exact Nat.le_add_right ..
    have hcount : l.buffered.countP Prod.fst ≤ l.queue.size :=
      h.length_buffered ▸ List.countP_le_length
    show ((l.accepted ++ [(b, r)]).drop _).countP _ ≤ q.capacity
    rw [List.drop_append_of_le_length htaken, List.countP_append, hcapacity]
    show l.buffered.countP Prod.fst + [(b, r)].countP Prod.fst ≤ l.queue.capacity
    cases b with
    | true =>
      have := hroom rfl
      rw [show [(true, r)].countP Prod.fst = 1 from rfl]
      omega
    | false => exact h.room

theorem overflow (h : l.Exact) {q : Queue} (hr : q.records = l.queue.records)
    (hd : q.dropped = l.queue.dropped + 1) (hcapacity : q.capacity = l.queue.capacity) :
    Exact { l with queue := q, pending := l.pending + 1, refused := l.refused + 1 } := by
  refine ⟨?_, Nat.le_trans h.room (Nat.le_of_eq hcapacity.symm), h.dropped, ?_,
    congrArg (· + 1) h.refused⟩
  · show _ ++ q.records.toList = _
    rw [hr, h.records]
  · show q.dropped = _
    rw [hd, h.pending]
    exact (UInt64.ofNat_add ..).symm

theorem keep (h : l.Exact) {q : Queue} (hr : q.records = l.queue.records)
    (hd : q.dropped = l.queue.dropped) (hcapacity : q.capacity = l.queue.capacity) :
    Exact { l with queue := q } := by
  refine ⟨?_, Nat.le_trans h.room (Nat.le_of_eq hcapacity.symm), h.dropped, hd.trans h.pending,
    h.refused⟩
  show _ ++ q.records.toList = _
  rw [hr, h.records]

theorem heed {x : QueueMove} (h : l.Exact) (hx : Queue.Effect l.queue x (l.queue.step x))
    (hcapacity : (l.queue.step x).capacity = l.queue.capacity) : (l.heed x).Exact := by
  rcases hx with @⟨b, r, ha, hx, hroom, hr, hd⟩ | @⟨n, ha, hr, hd⟩ | ⟨ha, ho, hr, hd⟩
  · rw [QueueLog.heed, ha, hx]
    exact h.accept hroom hr hd hcapacity
  · have hheed : l.heed x =
        { l with queue := l.queue.step x, pending := l.pending + 1, refused := l.refused + 1 } := by
      rw [QueueLog.heed, ha]
      simp [Queue.Answer.isOverflow]
    rw [hheed]
    exact h.overflow hr hd hcapacity
  · rw [QueueLog.heed, if_neg ha, ho, List.append_nil]
    exact h.keep hr hd hcapacity

theorem drain (h : l.Exact) : (l.step .drain).Exact := by
  refine ⟨?_, ?_, ?_, rfl, ?_⟩
  · show (l.batches ++ [l.queue.content]).flatMap _ ++ [] = l.accepted.map Prod.snd
    rw [List.append_nil, List.flatMap_append, List.flatMap_singleton]
    exact h.records
  · have hnone : (l.step .drain).buffered = [] := by
      refine List.drop_eq_nil_of_le ?_
      show l.accepted.length ≤ ((l.batches ++ [l.queue.content]).map _).sum
      rw [h.taken, List.map_append, List.sum_append]
      exact Nat.le_refl _
    rw [hnone]
    exact Nat.zero_le _
  · show (l.batches ++ [l.queue.content]).map _ = (l.overflows ++ [l.pending]).map _
    rw [List.map_append, List.map_append, h.dropped]
    exact congrArg (_ ++ [·]) h.pending
  · show (l.overflows ++ [l.pending]).sum + 0 = l.refused
    rw [List.sum_append, List.sum_singleton]
    exact h.refused

theorem step (h : l.Exact) (x : QueueMove) : (l.step x).Exact := by
  cases x with
  | drain => exact h.drain
  | reset c => exact ⟨rfl, Nat.zero_le _, rfl, rfl, rfl⟩
  | _ => exact h.heed (l.queue.effect_step _ nofun nofun) (l.queue.step_capacity _)

theorem run (h : l.Exact) (moves : List QueueMove) : (l.run moves).Exact := by
  induction moves generalizing l with
  | nil => exact h
  | cons x xs ih => exact ih (h.step x)

/-- A batch counts in 64 bits what was dropped before it. -/
theorem sum_dropped (h : l.Exact) (hn : ∀ n ∈ l.pending :: l.overflows, n < UInt64.size) :
    (l.batches.map (·.dropped.toNat)).sum + l.queue.dropped.toNat = l.refused := by
  have hbatches : l.batches.map (·.dropped.toNat) = l.overflows := by
    have hmap : l.batches.map (·.dropped.toNat) =
        (l.batches.map (·.dropped)).map UInt64.toNat := by
      rw [List.map_map]
      rfl
    rw [hmap, h.dropped, List.map_map]
    refine (List.map_congr_left fun n hm => ?_).trans (List.map_id _)
    exact UInt64.toNat_ofNat_of_lt' (hn n (List.mem_cons_of_mem _ hm))
  have hpending : l.queue.dropped.toNat = l.pending := by
    rw [h.pending]
    exact UInt64.toNat_ofNat_of_lt' (hn _ List.mem_cons_self)
  rw [hbatches, hpending, h.refused]

end Exact

end QueueLog

/-- Whatever is done to a queue, what has been taken from it since its last reset and what it holds is
what it has accepted since then; and each refusal for want of room is counted in one batch. -/
theorem queue_keeps_what_it_accepts (capacity : Nat) (moves : List QueueMove) :
    let l := (QueueLog.new capacity).run moves
    l.queue = (Queue.new capacity).run moves ∧ l.queue.Rules ∧
    l.batches.flatMap (·.records.toList) ++ l.queue.records.toList = l.accepted.map Prod.snd ∧
    l.buffered.map Prod.snd = l.queue.records.toList ∧
    l.buffered.countP Prod.fst ≤ l.queue.capacity ∧
    l.overflows.sum + l.pending = l.refused ∧
    l.batches.map (·.dropped) = l.overflows.map UInt64.ofNat ∧
    l.queue.dropped = .ofNat l.pending ∧
    ((∀ n ∈ l.pending :: l.overflows, n < UInt64.size) →
      (l.batches.map (·.dropped.toNat)).sum + l.queue.dropped.toNat = l.refused) := by
  intro l
  have h : l.Exact := (QueueLog.Exact.new capacity).run moves
  exact ⟨QueueLog.run_queue _ moves, l.queue.rules, h.records, h.buffered_map, h.room, h.refused,
    h.dropped, h.pending, h.sum_dropped⟩

/-- Two records of hooks for one place, a control record beyond it, and a marker that seals the queue
against a third; all is taken, and in the queue that is open again the next two fare as the first. -/
theorem queue_keeps_what_it_accepts_one_place :
    let r : Record := ⟨0, 0, 1, 1, 3, 0⟩
    let moves : List QueueMove := [.appendFrom 0 r, .append r, .appendControl 0 r, .close 1 r,
      .appendFrom 1 r, .drain, .reopen r, .reset 1, .append r, .append r, .drain, .append r]
    let l := (QueueLog.new 1).run moves
    (∀ n ∈ l.pending :: l.overflows, n < UInt64.size) ∧ l.refused = 1 ∧
      (l.batches.map (·.dropped.toNat)).sum + l.queue.dropped.toNat = l.refused := by
  intro r moves l
  obtain ⟨-, -, -, -, -, -, -, -, hsum⟩ := queue_keeps_what_it_accepts 1 moves
  have hn : ∀ n ∈ l.pending :: l.overflows, n < UInt64.size := by decide
  exact ⟨hn, by decide, hsum hn⟩

end MethodTrace
