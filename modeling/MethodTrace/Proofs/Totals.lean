import MethodTrace.Proofs.Gate
import MethodTrace.Proofs.Marks
import MethodTrace.Proofs.Recording
import MethodTrace.Proofs.Schedule
import MethodTrace.Proofs.Slices

/-!
# Totals of a workload

However the workers of a workload take turns on a fresh tracer that loses nothing, what the tracer has
counted in the end is told by the workload and the settings alone (`workload_totals`). Who finds a slot
is not, but how many do: all workers, or as many as there are slots.
-/

namespace MethodTrace

theorem sum_countP {α : Type} {n : Nat} {p : Nat → α → Bool} {q : α → Bool} {l : List α}
    (h : ∀ a ∈ l, ∑ i ∈ Finset.range n, (if p i a then 1 else 0) = if q a then 1 else 0) :
    ∑ i ∈ Finset.range n, l.countP (p i) = l.countP q := by
  induction l with
  | nil => exact Finset.sum_const_zero
  | cons a l ih =>
    obtain ⟨ha, hl⟩ := List.forall_mem_cons.mp h
    simp only [List.countP_cons, Finset.sum_add_distrib, ih hl, ha]

namespace Machine
variable {m : Machine} {x : Move} {xs : List Move} {limit : UInt32} {n : Nat}

/-! ### Records by thread -/

theorem written_step (hs : m.Steady) (x : Move)
    (h : m.tracer.tally.written = .ofNat (m.history.countP fun r => !r.isMarker)) :
    (m.step x).tracer.tally.written = .ofNat ((m.step x).history.countP fun r => !r.isMarker) := by
  have hcount {rs : List Record} (hrs : ∀ r ∈ rs, r.isMarker = false) :
      (rs.countP fun r => !r.isMarker) = rs.length :=
    List.countP_eq_length.mpr fun r hr => by rw [hrs r hr]; rfl
  rw [hs.history_step, List.countP_append, UInt64.ofNat_add, ← h]
  have hflow := hs.flow x
  generalize m.step x = m', m.news x = news at hflow
  cases hflow with
  | quiet _ hw | advance _ hw => rw [hw.posts.written, hcount hw.posts.unmarked]
  | suspend | resume | reset | drain => exact (UInt64.add_zero _).symm

/-- All records are counted but markers. -/
theorem written_run (hs : m.Steady)
    (h : m.tracer.tally.written = .ofNat (m.history.countP fun r => !r.isMarker)) :
    (m.run xs).tracer.tally.written = .ofNat ((m.run xs).history.countP fun r => !r.isMarker) := by
  induction xs generalizing m with
  | nil => exact h
  | cons x xs ih => exact ih (hs.step x) (written_step hs x h)

/-- Every record but a marker is that of one thread. -/
theorem Signed.sum_records (h : m.Signed) (ho : m.Orderly limit) (hm : Manned (List.range n) m) :
    ∑ i ∈ Finset.range n, (m.recordsOf i).length = m.history.countP fun r => !r.isMarker := by
  have hlength (i : Nat) : (m.recordsOf i).length =
      m.history.countP fun r => (m.stackOf i).any fun c => r.thread = c.no.val := by
    rw [recordsOf]
    rcases m.stackOf i with _ | c
    · exact (congrFun List.countP_false _).symm
    · exact List.countP_eq_length_filter.symm
  simp only [hlength]
  refine sum_countP fun r hr => ?_
  cases hmarker : r.isMarker with
  | true =>
    obtain ⟨k, -, hk⟩ := h.marker r hr hmarker
    have hzero : r.thread = 0 := congrArg Record.thread hk
    refine Finset.sum_eq_zero fun i _ => if_neg fun hany => ?_
    obtain ⟨c, hc, hno⟩ := (Option.any_eq_true _ _).mp hany
    obtain ⟨s, -, hc⟩ := Roster.Sound.slot?_of_stackOf hc
    have hnumber := ho.sound.number s c hc
    rw [← of_decide_eq_true hno, hzero] at hnumber
    cases hnumber
  | false =>
    obtain ⟨i, c, hc, hno⟩ := h.other r hr hmarker
    obtain ⟨s, hs, -⟩ := Roster.Sound.slot?_of_stackOf hc
    have hi : i ∈ Finset.range n :=
      Finset.mem_range.mpr (List.mem_range.mp (hm.members _ (Roster.mem_of_slot? hs)))
    rw [Finset.sum_eq_single_of_mem i hi fun j _ hne => if_neg fun hany => ?_, hc]
    · simp [hno]
    · obtain ⟨c', hc', hno'⟩ := (Option.any_eq_true _ _).mp hany
      have hsame : c'.no = c.no := congrArg ThreadNo.mk ((of_decide_eq_true hno').symm.trans hno.symm)
      exact hne (ho.eq_of_no hc' hc hsame).1

/-! ### Who is registered -/

/-- A sum over threads some of which are registered. -/
theorem Manned.sum_registered (h : Manned (List.range n) m) (ho : m.Orderly limit) (a b : Nat) :
    m.tracer.roster.size ≤ n ∧
      ∑ i ∈ Finset.range n, (if m.tracer.roster.slot? i = none then b else a) =
        m.tracer.roster.size * a + (n - m.tracer.roster.size) * b := by
  have hset : (Finset.range n).filter (fun i => ¬m.tracer.roster.slot? i = none) =
      (m.tracer.roster.members.map Prod.fst).toFinset := by
    ext i
    rw [Finset.mem_filter, List.mem_toFinset, Roster.slot?_eq_none_iff, not_not, Finset.mem_range,
      and_iff_right_iff_imp]
    intro hi
    obtain ⟨p, hp, rfl⟩ := List.mem_map.mp hi
    exact List.mem_range.mp (h.members p hp)
  have hcard : ((Finset.range n).filter fun i => ¬m.tracer.roster.slot? i = none).card =
      m.tracer.roster.size := by
    rw [hset, List.toFinset_card_of_nodup ho.sound.distinct, List.length_map, Roster.size]
  have hboth := Finset.card_filter_add_card_filter_not (s := Finset.range n)
    fun i => m.tracer.roster.slot? i = none
  rw [hcard, Finset.card_range] at hboth
  have hstrangers : ((Finset.range n).filter fun i => m.tracer.roster.slot? i = none).card =
      n - m.tracer.roster.size := by omega
  refine ⟨by omega, ?_⟩
  rw [Finset.sum_ite, Finset.sum_const, Finset.sum_const, hcard, hstrangers, Nat.nsmul_eq_mul,
    Nat.nsmul_eq_mul, Nat.add_comm]

end Machine

/-! ### Batches one after the other -/

namespace CallTree

theorem enrollsOf_replicate (n : Nat) {t : CallTree} (ht : t.enrolls = true) :
    enrollsOf (List.replicate n t) = decide (1 ≤ n) := by
  cases n with
  | zero => rfl
  | succ n =>
    rw [List.replicate_succ, enrollsOf, ht, Bool.true_or]
    exact (decide_eq_true (Nat.le_add_left 1 n)).symm

end CallTree

namespace Workload
open CallTree Machine
variable {w : Workload} {n : Nat}

theorem enrolls_batch (w : Workload) : w.batch.enrolls = true := by
  rw [batch_eq]
  split <;> rfl

theorem countP_batches {s : Scribe} {p : Record → Bool} {e : Nat} (h : PerFrame s p e)
    (hw : w.depth ≤ deepest) (n : Nat) :
    (referenceOf s 0 false (List.replicate n w.batch)).countP p =
      n * (e * w.framesWithin s.limit.toNat) := by
  rw [referenceOf_replicate, countP_flatten_replicate, countP_batch h hw]

theorem height_batches_lt (w : Workload) (n : Nat) :
    heightOf (List.replicate n w.batch) < UInt32.size := by
  have hheight := Nat.le_trans (heightOf_replicate_le n w.batch) w.height_batch_le
  exact Nat.lt_of_le_of_lt hheight (by decide)

theorem countP_enrolls_batches (hw : w.depth ≤ deepest) (n : Nat) :
    (((List.replicate n w.batch).flatMap calls).countP fun c => c.hook.enrolls) =
      n * (w.markers + 1) := by
  rw [List.flatMap_replicate, countP_flatten_replicate, countP_enrolls_batch hw]

theorem mem_marksOf_callees {fanout n level : Nat} {k : MethodId} :
    k ∈ marksOf true (callees fanout n level).1 ↔
      1 ≤ fanout ∧ k ∈ (List.range' level n).map levelId := by
  induction n generalizing level with
  | zero => exact ⟨fun hk => (List.not_mem_nil hk).elim, fun hk => (List.not_mem_nil hk.2).elim⟩
  | succ n ih =>
    have hmarks (ret : Option ReturnValue) (ts : List CallTree) :
        marks true (.node .method (levelId level) ret ts) = levelId level :: marksOf true ts := rfl
    rw [callees_succ, mem_marksOf_replicate, hmarks, List.mem_cons, ih, List.range'_succ,
      List.map_cons, List.mem_cons, Nat.one_le_iff_ne_zero]
    tauto

/-- The methods that a batch marks, if its worker is registered. -/
def marked (w : Workload) : List MethodId :=
  rootId :: if 1 ≤ w.fanout then (List.range' 1 w.depth).map levelId else []

theorem mem_marks_batch (hw : w.depth ≤ deepest) {k : MethodId} :
    k ∈ marks false w.batch ↔ k ∈ w.marked := by
  have htrunk : k ∈ marks false w.trunk ↔ k ∈ w.marked := by
    have hmarks : marks false w.trunk =
        rootId :: marksOf true (callees w.fanout w.levels 1).1 := rfl
    rw [hmarks, marked, levels_eq hw, List.mem_cons, List.mem_cons, mem_marksOf_callees]
    split <;> simp_all
  rw [batch_eq]
  split
  · have hmarks : marks false (.node .marker batchId none [w.trunk]) = marks false w.trunk := by
      simp [marks, marksOf, Family.below]
    rw [hmarks, htrunk]
  · exact htrunk

theorem nodup_marked (hw : w.depth ≤ deepest) : w.marked.Nodup := by
  have hnodup := w.nodup_legend
  rw [legend_ids, List.nodup_cons, levels_eq hw] at hnodup
  rw [marked]
  split
  · exact hnodup.2
  · exact List.nodup_singleton _

/-! ### The end of a run -/

namespace Course
variable {id : Nat} {s : Settings} {hasHandler : Bool} {xs : List Move} {i : Nat}

theorem journal_of_new (h : w.Course (.new (.new id s hasHandler)) xs) (hi : i < w.threads) :
    ((Machine.new (.new id s hasHandler)).run xs).journal i = PlacedCall.hooksOf w.program :=
  (h.journal i hi).trans (List.nil_append _)

theorem orderly (h : w.Course (.new (.new id s hasHandler)) xs) :
    ((Machine.new (.new id s hasHandler)).run xs).Orderly s.threadSlots :=
  (Orderly.new id s hasHandler).run xs h.isReset

theorem manned (h : w.Course (.new (.new id s hasHandler)) xs) :
    Manned (List.range w.threads) ((Machine.new (.new id s hasHandler)).run xs) :=
  (Manned.new id s hasHandler _).run h.isReset h.caller_lt

/-- A worker finds no slot if none is left for it, or if it has nothing to do. -/
theorem worker (h : w.Course (.new (.new id s hasHandler)) xs)
    (hdrop : Along NoDrop (.new (.new id s hasHandler)) xs) (hi : i < w.threads) :
    let m := (Machine.new (.new id s hasHandler)).run xs
    (m.tracer.roster.slot? i = none ∧ (w.iterations = 0 ∨ m.tracer.quota.remaining = 0)) ∨
    (m.tracer.roster.slot? i ≠ none ∧ 1 ≤ w.iterations ∧ ∃ no name,
      (m.view i).stack = some (.new no name) ∧
      let scribe : Scribe := ⟨no, s.depthLimit, s.captureReturns⟩
      (m.recordsOf i).map Record.timeless =
        scribe.created :: referenceOf scribe 0 false (List.replicate w.iterations w.batch)) := by
  intro m
  by_cases hfull : m.Full i
  · exact .inl ⟨hfull.stranger, .inr hfull.full⟩
  have hspares := spares_of_not_full (.new id s hasHandler) hfull h.isReset (h.included i) (h.settled i)
  have htold := told_of_spares h.isReset hdrop (h.epochLeft i) (h.included i) hspares
  have hheight := w.height_batches_lt w.iterations
  rw [← running_program] at hheight
  have hnested := htold.nested trivial trivial (view_of_idle (h.idle i)) (h.journal_of_new hi)
    w.whole_program hheight
  rw [running_program, enrollsOf_replicate _ w.enrolls_batch] at hnested
  rcases hnested with ⟨hstack, -, hnone⟩ | ⟨no, name, hstack, hrecords, hsome⟩
  · refine .inl ⟨?_, .inl (Nat.lt_one_iff.mp (Nat.lt_of_not_le (of_decide_eq_false hnone)))⟩
    rcases hslot : m.tracer.roster.slot? i with _ | slot
    · rfl
    · obtain ⟨c, hc⟩ := h.orderly.sound.stack?_of_slot? hslot
      have hnone := stackOf_eq_none hstack
      rw [stackOf, Roster.stackOf_of_slot? hslot, hc] at hnone
      cases hnone
  · refine .inr ⟨fun hslot => ?_, of_decide_eq_true hsome, no, name, hstack, hrecords⟩
    rw [view_stack_of_stranger hslot] at hstack
    cases hstack

/-- Only workers are registered. -/
theorem lt_of_slot? (h : w.Course (.new (.new id s hasHandler)) xs)
    (hslot : ((Machine.new (.new id s hasHandler)).run xs).tracer.roster.slot? i ≠ none) :
    i < w.threads := by
  obtain ⟨slot, hslot⟩ := Option.ne_none_iff_exists'.mp hslot
  exact List.mem_range.mp (h.manned.members _ (Roster.mem_of_slot? hslot))

/-- A worker that is registered has not been refused. -/
theorem granted (h : w.Course (.new (.new id s hasHandler)) xs)
    (hslot : ((Machine.new (.new id s hasHandler)).run xs).tracer.roster.slot? i ≠ none) :
    Along (Granted i) (.new (.new id s hasHandler)) xs := by
  obtain ⟨slot, hslot⟩ := Option.ne_none_iff_exists'.mp hslot
  exact (Welcome.new id s hasHandler i).granted_run (.new id s hasHandler) h.isReset
    (spares_of_registered (.new id s hasHandler) hslot h.isReset (h.included i) (h.settled i))

/-- As many workers are registered as there is room for. -/
theorem size_eq (h : w.Course (.new (.new id s hasHandler)) xs)
    (hdrop : Along NoDrop (.new (.new id s hasHandler)) xs) :
    ((Machine.new (.new id s hasHandler)).run xs).tracer.roster.size =
      if 1 ≤ w.iterations then min w.threads s.threadSlots.toNat else 0 := by
  have hworker {i : Nat} (hi : i ∈ Finset.range w.threads) :=
    h.worker hdrop (Finset.mem_range.mp hi)
  have hroom := h.orderly.sound.room
  rw [← h.orderly.sound.size_eq] at hroom
  obtain ⟨hle, hsum⟩ := h.manned.sum_registered h.orderly 1 0
  rw [Nat.mul_one, Nat.mul_zero, Nat.add_zero] at hsum
  split
  · rename_i hpos
    by_cases hfull : ((Machine.new (.new id s hasHandler)).run xs).tracer.quota.remaining = 0
    · have hzero : (0 : UInt32).toNat = 0 := rfl
      rw [hfull, hzero] at hroom
      omega
    · have hall : ∀ i ∈ Finset.range w.threads, (if ((Machine.new (.new id s hasHandler)).run
          xs).tracer.roster.slot? i = none then 0 else 1) = 1 := fun i hi => by
        rcases hworker hi with ⟨-, hnone | hnone⟩ | ⟨hslot, -⟩
        · omega
        · exact absurd hnone hfull
        · exact if_neg hslot
      rw [Finset.sum_congr rfl hall, Finset.sum_const, Finset.card_range, Nat.nsmul_eq_mul,
        Nat.mul_one] at hsum
      omega
  · rename_i hnone
    rw [← hsum]
    refine Finset.sum_eq_zero fun i hi => ?_
    rcases hworker hi with ⟨hslot, -⟩ | ⟨-, hpos, -⟩
    · exact if_pos hslot
    · exact absurd hpos hnone

/-- What a worker writes that is registered. -/
theorem countP_recordsOf (h : w.Course (.new (.new id s hasHandler)) xs)
    (hdrop : Along NoDrop (.new (.new id s hasHandler)) xs) (hw : w.depth ≤ deepest)
    (hi : i < w.threads) {p : Record → Bool} {e c : Nat}
    (hp : ∀ r : Record, p r.timeless = p r) (he : ∀ scribe, PerFrame scribe p e)
    (hc : ∀ scribe : Scribe, [scribe.created].countP p = c) :
    let m := (Machine.new (.new id s hasHandler)).run xs
    (m.recordsOf i).countP p = if m.tracer.roster.slot? i = none then 0
      else c + w.iterations * (e * w.framesWithin s.depthLimit.toNat) := by
  intro m
  split
  · rename_i hslot
    rw [recordsOf, stackOf, Roster.stackOf_of_slot?_eq_none hslot]
    rfl
  · rename_i hslot
    rcases h.worker hdrop hi with ⟨hnone, -⟩ | ⟨-, -, no, name, -, hrecords⟩
    · exact absurd hnone hslot
    have htimeless : (m.recordsOf i).countP p = ((m.recordsOf i).map Record.timeless).countP p := by
      rw [List.countP_map]
      exact congrArg (List.countP · _) (funext fun r => (hp r).symm)
    rw [htimeless, hrecords, ← List.singleton_append, List.countP_append, hc, countP_batches (he _) hw]

/-- Every record but a marker is that of a registration, or of a call of a batch. -/
theorem origin (h : w.Course (.new (.new id s hasHandler)) xs)
    (hdrop : Along NoDrop (.new (.new id s hasHandler)) xs) {r : Record}
    (hr : r ∈ ((Machine.new (.new id s hasHandler)).run xs).history) (hmarker : r.isMarker = false) :
    ∃ no, let scribe : Scribe := ⟨no, s.depthLimit, s.captureReturns⟩
      r.timeless = scribe.created ∨ ∃ c ∈ w.batch.calls, ∃ k,
        r.timeless = scribe.record k c.method c.ret ∧ (k = .rootExit → c.hook = .rootExit) := by
  have hsigned := (Signed.new id s hasHandler).run (.new id s hasHandler) (.new id s hasHandler) h.isReset
  obtain ⟨i, c, hc, hno⟩ := hsigned.other r hr hmarker
  obtain ⟨slot, hslot, -⟩ := Roster.Sound.slot?_of_stackOf hc
  have hsome := hslot ▸ Option.some_ne_none slot
  rcases h.worker hdrop (h.lt_of_slot? hsome) with ⟨hnone, -⟩ | ⟨-, -, no, name, -, hrecords⟩
  · exact absurd hnone hsome
  have hown : r ∈ ((Machine.new (.new id s hasHandler)).run xs).recordsOf i := by
    rw [recordsOf, hc]
    exact List.mem_filter.mpr ⟨hr, decide_eq_true hno.symm⟩
  have hmem := List.mem_map_of_mem (f := Record.timeless) hown
  rw [hrecords] at hmem
  refine ⟨no, (List.mem_cons.mp hmem).imp_right fun hmem => ?_⟩
  obtain ⟨c', hc', hrecord⟩ := mem_referenceOf _ _ _ _ hmem
  obtain ⟨t, ht, hc'⟩ := List.mem_flatMap.mp hc'
  exact ⟨c', (List.mem_replicate.mp ht).2 ▸ hc', hrecord⟩

/-- What is read off the record of a root exit. -/
theorem ret_of_rootExit (h : w.Course (.new (.new id s hasHandler)) xs)
    (hdrop : Along NoDrop (.new (.new id s hasHandler)) xs) (hw : w.depth ≤ deepest) {r : Record}
    (hr : r ∈ ((Machine.new (.new id s hasHandler)).run xs).history) {e : Event}
    (he : Event.decode r = .ok e) (hkind : e.kind = .rootExit) :
    e.ret = if s.captureReturns then some (.int (.ofNat w.total)) else none := by
  have hmarker : r.isMarker = false := by
    rw [Record.isMarker, Event.isOf_of_decode he, Event.isOf_of_decode he, hkind]
    rfl
  have hdecode : Event.decode r.timeless = .ok { e with timestamp := ⟨0⟩ } := by
    rw [Event.decode_timeless, he]
    rfl
  obtain ⟨no, hcreated | ⟨c, hc, k, hrecord, hhook⟩⟩ := h.origin hdrop hr hmarker
  · rw [hcreated, Scribe.created, Event.decode_encode] at hdecode
    injection hdecode with hevent
    have hcreated : Kind.threadCreated = e.kind := congrArg Event.kind hevent
    rw [hkind] at hcreated
    cases hcreated
  · rw [hrecord, Scribe.record, Event.decode_encode] at hdecode
    injection hdecode with hevent
    have hexit : k = .rootExit := (congrArg Event.kind hevent).trans hkind
    have hret : (if k.isExit then if s.captureReturns then c.ret else none else none) = e.ret :=
      congrArg Event.ret hevent
    rw [← hret, hexit, (calls_of_mem hw hc).ret_of_rootExit (hhook hexit)]
    rfl

/-- A worker that is registered writes as many entries as exits. -/
theorem pairs (h : w.Course (.new (.new id s hasHandler)) xs)
    (hdrop : Along NoDrop (.new (.new id s hasHandler)) xs) (hw : w.depth ≤ deepest) {c : CallStack}
    (hc : ((Machine.new (.new id s hasHandler)).run xs).stackOf i = some c) :
    let m := (Machine.new (.new id s hasHandler)).run xs
    let recorded := w.iterations * w.framesWithin s.depthLimit.toNat
    (m.recordsOf i).countP Record.isEntry = recorded ∧
      (m.recordsOf i).countP Record.isExit = recorded := by
  intro m recorded
  obtain ⟨slot, hslot, -⟩ := Roster.Sound.slot?_of_stackOf hc
  have hsome : m.tracer.roster.slot? i ≠ none := hslot ▸ Option.some_ne_none slot
  have hcount {p : Record → Bool} (hp : ∀ r : Record, p r.timeless = p r)
      (hone : ∀ scribe, PerFrame scribe p 1) (hzero : ∀ scribe : Scribe, [scribe.created].countP p = 0) :
      (m.recordsOf i).countP p = recorded := by
    have hrecords : (m.recordsOf i).countP p = if m.tracer.roster.slot? i = none then 0
        else 0 + w.iterations * (1 * w.framesWithin s.depthLimit.toNat) :=
      h.countP_recordsOf hdrop hw (h.lt_of_slot? hsome) hp hone hzero
    rwa [if_neg hsome, Nat.zero_add, Nat.one_mul] at hrecords
  exact ⟨hcount Record.isEntry_timeless perFrame_isEntry fun _ => rfl,
    hcount Record.isExit_timeless perFrame_isExit fun _ => rfl⟩

/-- The records of all workers. -/
theorem written (h : w.Course (.new (.new id s hasHandler)) xs)
    (hdrop : Along NoDrop (.new (.new id s hasHandler)) xs) (hw : w.depth ≤ deepest) :
    let m := (Machine.new (.new id s hasHandler)).run xs
    m.tracer.tally.written = .ofNat (m.tracer.roster.size *
      (1 + w.iterations * (2 * w.framesWithin s.depthLimit.toNat))) := by
  intro m
  have hsigned : m.Signed :=
    (Signed.new id s hasHandler).run (.new id s hasHandler) (.new id s hasHandler) h.isReset
  have hworker : ∀ i ∈ Finset.range w.threads, (m.recordsOf i).length =
      if m.tracer.roster.slot? i = none then 0
      else 1 + w.iterations * (2 * w.framesWithin s.depthLimit.toNat) := fun i hi => by
    rw [← congrFun List.countP_true (m.recordsOf i)]
    exact h.countP_recordsOf hdrop hw (Finset.mem_range.mp hi) (fun _ => rfl) perFrame_true
      fun _ => rfl
  have hwritten : m.tracer.tally.written = .ofNat (m.history.countP fun r => !r.isMarker) :=
    written_run (.new id s hasHandler) rfl
  rw [hwritten, ← hsigned.sum_records h.orderly h.manned, Finset.sum_congr rfl hworker,
    (h.manned.sum_registered h.orderly _ _).2, Nat.mul_zero, Nat.add_zero]

/-- How often hooks of a worker are refused that is in want of a slot. -/
theorem refusedTo_denied (h : w.Course (.new (.new id s hasHandler)) xs) (hw : w.depth ≤ deepest)
    (hi : i < w.threads) :
    let m := (Machine.new (.new id s hasHandler)).run xs
    (Machine.new (.new id s hasHandler)).refusedTo i .admissionDenied xs =
      (if m.tracer.roster.slot? i = none then w.iterations * (w.markers + 1) else 0) ∧
    (Machine.new (.new id s hasHandler)).refusedTo i .guarded xs = 0 := by
  intro m
  have hplain : (Machine.new (.new id s hasHandler)).Plain := .new id s hasHandler
  split
  · rename_i hslot
    obtain ⟨hdenied, hguarded⟩ := hplain.stranger_run (.new id s hasHandler) (.new id s hasHandler)
      h.sequential h.isCounted h.isReset hslot
    have hidle : m.enrolling i = 0 := by rw [enrolling, h.idle i]; rfl
    have hnone : (Machine.new (.new id s hasHandler)).enrolling i = 0 := rfl
    have hnew : heard ((Machine.new (.new id s hasHandler)).journal i) = [] := rfl
    rw [h.journal_of_new hi, heard_program, countP_enrolls_batches hw, hidle, hnone, hnew,
      List.countP_nil, Nat.add_zero, Nat.add_zero, Nat.zero_add] at hdenied
    exact ⟨hdenied, hguarded⟩
  · rename_i hslot
    have hnot {e : HookError} := hplain.granted_run (e := e) h.sequential h.isCounted (h.granted hslot)
    exact ⟨hnot HookError.noConfusion, hnot HookError.noConfusion⟩

theorem refusedTo_suspended (h : w.Course (.new (.new id s hasHandler)) xs) (hw : w.depth ≤ deepest)
    (hi : i < w.threads) : (Machine.new (.new id s hasHandler)).refusedTo i .suspended xs =
      if w.suspendMidway then 2 * w.frames else 0 := by
  have hplain : (Machine.new (.new id s hasHandler)).Plain := .new id s hasHandler
  have hrun := hplain.suspended_run (.new id s hasHandler) h.sequential h.isCounted i
  have hnew : ((Machine.new (.new id s hasHandler)).journal i).countP Prod.fst = 0 := rfl
  rw [h.journal_of_new hi, countP_program, length_calls_batch hw, hnew, Nat.zero_add] at hrun
  exact hrun.symm

/-- The refusals of all workers. -/
theorem refused (h : w.Course (.new (.new id s hasHandler)) xs) (e : HookError) :
    ((Machine.new (.new id s hasHandler)).run xs).tracer.tally.refused e =
      .ofNat (∑ i ∈ Finset.range w.threads, (Machine.new (.new id s hasHandler)).refusedTo i e xs) := by
  have hrun := refused_run (n := w.threads) (.new id s hasHandler) (.new id s hasHandler)
    (fun j hj => absurd rfl hj) h.sequential h.isCounted
    (fun x hx j hj => List.mem_range.mp (h.caller_lt x hx j hj)) e
  have hnew : (Machine.new (.new id s hasHandler)).tracer.tally.refused e = 0 := by cases e <;> rfl
  rw [hrun, hnew, UInt64.zero_add]

theorem denied (h : w.Course (.new (.new id s hasHandler)) xs) (hw : w.depth ≤ deepest) :
    let m := (Machine.new (.new id s hasHandler)).run xs
    m.tracer.tally.denied =
        .ofNat ((w.threads - m.tracer.roster.size) * (w.iterations * (w.markers + 1))) ∧
      m.tracer.tally.guarded = 0 := by
  intro m
  have hdenied : ∀ i ∈ Finset.range w.threads,
      (Machine.new (.new id s hasHandler)).refusedTo i .admissionDenied xs =
        if m.tracer.roster.slot? i = none then w.iterations * (w.markers + 1) else 0 :=
    fun i hi => (h.refusedTo_denied hw (Finset.mem_range.mp hi)).1
  have hguarded : ∀ i ∈ Finset.range w.threads,
      (Machine.new (.new id s hasHandler)).refusedTo i .guarded xs = 0 :=
    fun i hi => (h.refusedTo_denied hw (Finset.mem_range.mp hi)).2
  constructor
  · have hrun := h.refused .admissionDenied
    rwa [Finset.sum_congr rfl hdenied, (h.manned.sum_registered h.orderly _ _).2, Nat.mul_zero,
      Nat.zero_add] at hrun
  · have hrun := h.refused .guarded
    rwa [Finset.sum_eq_zero hguarded] at hrun

theorem suspended (h : w.Course (.new (.new id s hasHandler)) xs) (hw : w.depth ≤ deepest) :
    ((Machine.new (.new id s hasHandler)).run xs).tracer.tally.suspended =
      .ofNat (if w.suspendMidway then 2 * w.threads * w.frames else 0) := by
  have hworker : ∀ i ∈ Finset.range w.threads,
      (Machine.new (.new id s hasHandler)).refusedTo i .suspended xs =
        if w.suspendMidway then 2 * w.frames else 0 :=
    fun i hi => h.refusedTo_suspended hw (Finset.mem_range.mp hi)
  have hrun := h.refused .suspended
  rw [Finset.sum_congr rfl hworker, Finset.sum_const, Finset.card_range, Nat.nsmul_eq_mul, mul_ite,
    Nat.mul_zero, Nat.mul_left_comm, ← Nat.mul_assoc] at hrun
  exact hrun

/-- What a worker marks that is registered. -/
theorem mem_marks (h : w.Course (.new (.new id s hasHandler)) xs)
    (hdrop : Along NoDrop (.new (.new id s hasHandler)) xs) (hw : w.depth ≤ deepest)
    (scribes : ThreadNo → Scribe) {k : MethodId} :
    let m := (Machine.new (.new id s hasHandler)).run xs
    k ∈ (m.view i).marks scribes ↔ m.tracer.roster.slot? i ≠ none ∧ k ∈ w.marked := by
  intro m
  by_cases hslot : m.tracer.roster.slot? i = none
  · rw [View.marks, view_stack_of_stranger hslot]
    exact ⟨fun hk => (List.not_mem_nil hk).elim, fun hk => absurd hslot hk.1⟩
  rcases h.worker hdrop (h.lt_of_slot? hslot) with ⟨hnone, -⟩ | ⟨-, hpos, no, name, hstack, -⟩
  · exact absurd hnone hslot
  have hfooting : (m.view i).footing.isPending = false := by
    rw [view_of_idle (h.idle i)]
    rfl
  have hacted : (m.view i).acted = (List.replicate w.iterations w.batch).flatMap calls := by
    rw [View.acted_of_not_pending hfooting, ← heard_program]
    exact congrArg heard (h.journal_of_new (h.lt_of_slot? hslot))
  have hheight : (CallStack.new no name).depth.toNat + heightOf (List.replicate w.iterations w.batch) <
      UInt32.size := by
    have hzero : (CallStack.new no name).depth.toNat = 0 := rfl
    rw [hzero, Nat.zero_add]
    exact w.height_batches_lt w.iterations
  have hroot : (CallStack.new no name).hasRoot = false := rfl
  have hmarks : (m.view i).marks scribes = marksOf false (List.replicate w.iterations w.batch) := by
    rw [View.marks, hstack]
    show (scribes no).opens (m.view i).acted (.new no name) = _
    rw [hacted, opens_flatMap (.new no name) (scribes no) _ hheight, hroot]
  rw [hmarks, mem_marksOf_replicate, mem_marks_batch hw, ← Nat.one_le_iff_ne_zero]
  exact and_congr_left' ⟨fun _ => hslot, fun _ => hpos⟩

/-- The methods that are known to be invoked. -/
theorem invoked (h : w.Course (.new (.new id s hasHandler)) xs)
    (hdrop : Along NoDrop (.new (.new id s hasHandler)) xs) (hw : w.depth ≤ deepest) (k : MethodId) :
    let m := (Machine.new (.new id s hasHandler)).run xs
    m.tracer.invoked.contains k = true ↔ m.tracer.roster.size ≠ 0 ∧ k ∈ w.marked := by
  intro m
  have hmarked : m.Marked := Marked.run (.new id s hasHandler) (.new id s hasHandler)
    (.new id s hasHandler) (.new id s hasHandler) (.new id s hasHandler) h.sequential h.isCounted
    h.isReset fun i hslot => ⟨.new id s hasHandler i, h.included i, h.granted hslot,
      told_new id s hasHandler i False True⟩
  have hmember : m.tracer.roster.size ≠ 0 ↔ ∃ i, m.tracer.roster.slot? i ≠ none := by
    rw [← Nat.pos_iff_ne_zero, Roster.size, ← List.length_map Prod.fst, List.length_pos_iff_exists_mem]
    exact exists_congr fun i => (not_iff_comm.mp Roster.slot?_eq_none_iff.symm).symm
  rw [hmarked k, hmember, ← exists_and_right]
  exact exists_congr fun i => h.mem_marks hdrop hw _

/-- The methods that are known to be invoked, in numbers. -/
theorem size_invoked (h : w.Course (.new (.new id s hasHandler)) xs)
    (hdrop : Along NoDrop (.new (.new id s hasHandler)) xs) (hw : w.depth ≤ deepest) :
    let m := (Machine.new (.new id s hasHandler)).run xs
    m.tracer.invoked.size = if m.tracer.roster.size = 0 then 0
      else 1 + if 1 ≤ w.fanout then w.depth else 0 := by
  intro m
  have hinvoked := h.invoked hdrop hw
  split
  · rename_i hsize
    refine MethodSet.size_eq_length List.nodup_nil fun k => (hinvoked k).trans ?_
    exact ⟨fun hk => absurd hsize hk.1, fun hk => (List.not_mem_nil hk).elim⟩
  · rename_i hsize
    have hlength : w.marked.length = 1 + if 1 ≤ w.fanout then w.depth else 0 := by
      rw [marked, List.length_cons, Nat.add_comm]
      split <;> simp
    rw [← hlength]
    exact MethodSet.size_eq_length (nodup_marked hw) fun k =>
      (hinvoked k).trans (and_iff_right hsize)

end Course

end Workload

open Machine Workload CallTree in
/-- The workers of a workload do their batches on a fresh tracer that drops no record, their steps in
any order. If there are batches, a worker finds a slot as long as there is one; it writes the record of
its registration and, for each frame that is not too deep, an entry and an exit. The others are denied
as often as they open a marker or a root. Hooks are suspended if and only if there is a suspension
halfway, then those of one batch of every worker. The methods known to be invoked are the root and one
of each level, if there are any. A root returns the sum of the levels of all its callees. All methods
have names, and no two have the same id. The order in which a workload is run is one of those meant
here. -/
theorem workload_totals (w : Workload) (hw : w.depth ≤ deepest) (id : Nat) (s : Settings)
    (hasHandler : Bool) (xs : List Move) (hruns : w.Runs (.new (.new id s hasHandler)) xs)
    (hdrop : Along NoDrop (.new (.new id s hasHandler)) xs) :
    let m := (Machine.new (.new id s hasHandler)).run xs
    let admitted := min w.threads s.threadSlots.toNat
    let recorded := w.iterations * w.framesWithin s.depthLimit.toNat
    let returned : Int64 := .ofNat w.total
    (m.tracer.tally.written =
        .ofNat (if 1 ≤ w.iterations then admitted * (1 + 2 * recorded) else 0) ∧
      m.tracer.roster.size = (if 1 ≤ w.iterations then admitted else 0) ∧
      ∀ i c, m.stackOf i = some c → (m.recordsOf i).countP Record.isEntry = recorded ∧
        (m.recordsOf i).countP Record.isExit = recorded) ∧
    (m.tracer.tally.denied =
        .ofNat ((w.threads - admitted) * w.iterations * (w.markers + 1)) ∧
      m.tracer.tally.suspended =
        .ofNat (if w.suspendMidway then 2 * w.threads * w.frames else 0) ∧
      m.tracer.tally.guarded = 0 ∧ m.tracer.tally.sealedOut = 0) ∧
    m.tracer.invoked.size = (if 1 ≤ admitted ∧ 1 ≤ w.iterations then
      1 + if 1 ≤ w.fanout then w.depth else 0 else 0) ∧
    ((w.total < 2 ^ 63 → returned.toInt = w.total) ∧
      (∀ c ∈ w.batch.calls, c.hook = .rootExit → c.ret = some (.int returned)) ∧
      ∀ r ∈ m.history, ∀ e, Event.decode r = .ok e → e.kind = .rootExit →
        e.ret = if s.captureReturns then some (.int returned) else none) ∧
    ((∀ who c counted, .call who c counted ∈ xs → c ∈ w.batch.calls) ∧
      (∀ c ∈ w.batch.calls, ∃! name, (c.method, name) ∈ w.legend) ∧
      (w.legend.map Prod.fst).Nodup) ∧
    ∀ collector, w.Runs (.new (.new id s hasHandler)) (w.schedule collector.isSome) ∧
      ((Machine.new (.new id s hasHandler)).run (w.schedule collector.isSome)).tracer =
        (w.run (.new id s hasHandler) collector).tracer := by
  intro m admitted recorded returned
  have hcourse := hruns.course (fun _ => rfl) rfl
  have hsize : m.tracer.roster.size = if 1 ≤ w.iterations then admitted else 0 :=
    hcourse.size_eq hdrop
  obtain ⟨hdenied, hguarded⟩ := hcourse.denied hw
  refine ⟨⟨?_, hsize, fun i c => hcourse.pairs hdrop hw⟩,
    ⟨?_, hcourse.suspended hw, hguarded, ?_⟩, ?_, ⟨Int64.toInt_ofNat_of_lt,
      fun c hc => (calls_of_mem hw hc).ret_of_rootExit,
      fun r hr e => hcourse.ret_of_rootExit hdrop hw hr⟩,
    ⟨fun who c counted => hruns.mem_calls, fun c hc => existsUnique_name hw (calls_of_mem hw hc),
      w.nodup_legend⟩,
    fun collector => ⟨w.runs_schedule (fun _ => rfl) collector.isSome, w.tracer_schedule _ collector⟩⟩
  · rw [hcourse.written hdrop hw, hsize, Nat.mul_left_comm w.iterations]
    split
    · rfl
    · rw [Nat.zero_mul]
  · rw [hdenied, hsize, Nat.mul_assoc]
    split
    · rfl
    · rename_i hnone
      have hzero : w.iterations = 0 := Nat.lt_one_iff.mp (Nat.lt_of_not_le hnone)
      rw [hzero, Nat.zero_mul, Nat.mul_zero, Nat.mul_zero]
  · refine ((InTime.new id s hasHandler).run xs ?_).sealedOut
    exact Nat.lt_of_le_of_lt hcourse.suspensions (show 0 + 1 < UInt64.size by decide)
  · rw [hcourse.size_invoked hdrop hw, hsize]
    split <;> split <;> simp_all

open Workload in
/-- Two workers whose calls take turns step by step, a slot for one of them, and a suspension. -/
theorem workload_totals_two_workers :
    let w : Workload := ⟨2, 1, 1, 1, false, true⟩
    let s : Settings := { Settings.default with threadSlots := 1 }
    let both (c : Call) : List Move := .call (worker 0) c true :: .call (worker 1) c true ::
      (List.replicate 5 [.advance (worker 0), .advance (worker 1)]).flatten
    let batches : List Move := w.batch.calls.flatMap both
    let xs : List Move := .suspend :: (batches ++ .resume :: batches)
    let m₀ : Machine := .new (.new 0 s false)
    let m := m₀.run xs
    w.depth ≤ deepest ∧ w.Runs m₀ xs ∧ m₀.Along Machine.NoDrop xs ∧
      m.tracer.tally.written = 5 ∧ m.tracer.roster.size = 1 ∧ m.tracer.tally.denied = 1 ∧
      m.tracer.tally.suspended = 8 ∧ m.tracer.tally.guarded = 0 ∧ m.tracer.tally.sealedOut = 0 ∧
      m.tracer.invoked.size = 2 := by
  intro w s both batches xs m₀ m
  have hw : w.depth ≤ deepest := by decide
  have hdrop : m₀.Along Machine.NoDrop xs := by decide +kernel
  have hxs : w.Turns (w.iterations / 2) m₀ [] := ⟨by decide, by decide, trivial, by decide⟩
  have hys : w.Turns 1 (m₀.run []).suspend batches :=
    ⟨by decide +kernel, by decide +kernel, by decide +kernel, by decide +kernel⟩
  have hzs : w.Turns (w.iterations - w.iterations / 2) ((m₀.run []).suspend.run batches).resume
      batches :=
    ⟨by decide +kernel, by decide +kernel, by decide +kernel, by decide +kernel⟩
  have hruns : w.Runs m₀ ([] ++ xs) := .midway rfl hxs hys hzs
  obtain ⟨⟨hwritten, hsize, -⟩, ⟨hdenied, hsuspended, hguarded, hsealed⟩, hinvoked, -⟩ :=
    workload_totals w hw 0 s false xs hruns hdrop
  refine ⟨hw, hruns, hdrop, ?_, ?_, ?_, ?_, ?_, ?_, ?_⟩
  · rw [hwritten]
    decide +kernel
  · rw [hsize]
    decide
  · rw [hdenied]
    decide
  · rw [hsuspended]
    decide +kernel
  · rw [hguarded]
  · rw [hsealed]
  · rw [hinvoked]
    decide

end MethodTrace
