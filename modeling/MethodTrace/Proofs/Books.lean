import Mathlib.Algebra.Ring.Nat
import MethodTrace.Collector
import MethodTrace.Proofs.Flow

/-!
# Books

A run with collectors, and with a batch for every time the queue was emptied: what it held, and who
got it. The books are balanced (`Balanced`): what the queue has let in is what has left it and what
it holds, in the same order, and the tally has counted all of it but the markers. Collectors count
all that they get (`collect_records`, `collect_dropped`).
-/

namespace MethodTrace

namespace Collector
variable (c : Collector) (d : Drained)

theorem process_records (r : Record) : (c.process r).counts.records = c.counts.records + 1 := by
  unfold process
  rcases Event.decode r with _ | e <;> rfl

theorem process_dropped (r : Record) : (c.process r).counts.dropped = c.counts.dropped := by
  unfold process
  rcases Event.decode r with _ | e <;> rfl

theorem foldl_process_records (rs : List Record) :
    (rs.foldl process c).counts.records = c.counts.records + rs.length := by
  induction rs generalizing c with
  | nil => rfl
  | cons r rs ih =>
    rw [List.foldl_cons, ih, process_records, List.length_cons]
    omega

theorem foldl_process_dropped (rs : List Record) :
    (rs.foldl process c).counts.dropped = c.counts.dropped := by
  induction rs generalizing c with
  | nil => rfl
  | cons r rs ih => rw [List.foldl_cons, ih, process_dropped]

theorem collect_records : (c.collect d).counts.records = c.counts.records + d.records.size := by
  unfold collect
  split
  · rename_i hempty
    rw [Array.isEmpty_iff.mp hempty]
    rfl
  · rw [← Array.foldl_toList, foldl_process_records, Array.length_toList]

theorem collect_dropped : (c.collect d).counts.dropped = c.counts.dropped + d.dropped.toNat := by
  unfold collect
  split
  · rfl
  · rw [← Array.foldl_toList, foldl_process_dropped]

end Collector

/-- Who got what the queue held. -/
inductive Fate where
  | collected (collector : Nat)
  | drained
  | discarded
deriving DecidableEq

namespace Fate

def isCollected : Fate → Bool
  | collected _ => true
  | _ => false

@[simp] theorem isCollected_collected (k : Nat) : (collected k).isCollected = true := rfl

@[simp] theorem isCollected_drained : drained.isCollected = false := rfl

@[simp] theorem isCollected_discarded : discarded.isCollected = false := rfl

end Fate

structure Batch where
  fate : Fate
  content : Drained

structure Books where
  machine : Machine
  collectors : List Collector
  /-- What has left the queue, in this order. -/
  batches : List Batch
  /-- What the queue has let in, in this order. -/
  accepted : List Record
  /-- How often tracing has been resumed. -/
  resumptions : Nat

inductive BooksMove where
  | move (x : Move)
  | hire (timeline : Option Timeline) (listener : Bool)
  /-- A collector takes what is in the queue. -/
  | collect (collector : Nat)
  /-- Something else is done to a collector, which it does not count. -/
  | attend (collector : Nat) (timeline : Option Timeline) (feed : Feed)

namespace Machine

/-- What leaves the queue in a move, and how. -/
def batches (m : Machine) : Move → List Batch
  | .drain => [⟨.drained, m.tracer.queue.content⟩]
  | .reset _ => if m.tracer.suspension.suspended then [⟨.discarded, m.tracer.queue.content⟩] else []
  | _ => []

def resumes (m : Machine) : Move → Bool
  | .resume => m.tracer.suspension.suspended
  | _ => false

end Machine

namespace Books

def new (t : Tracer) : Books := ⟨.new t, [], [], [], 0⟩

def step (b : Books) : BooksMove → Books
  | .move x =>
    { b with
      machine := b.machine.step x
      batches := b.batches ++ b.machine.batches x
      accepted := b.accepted ++ b.machine.news x
      resumptions := if b.machine.resumes x then b.resumptions + 1 else b.resumptions }
  | .hire timeline listener => { b with collectors := b.collectors ++ [.new timeline listener] }
  | .collect k =>
    match b.collectors[k]? with
    | none => b
    | some c =>
      { b with
        machine := b.machine.drain
        collectors := b.collectors.set k (c.collect b.machine.tracer.queue.content)
        batches := b.batches ++ [⟨.collected k, b.machine.tracer.queue.content⟩] }
  | .attend k timeline feed =>
    match b.collectors[k]? with
    | none => b
    | some c => { b with collectors := b.collectors.set k { c with timeline := timeline, feed := feed } }

def run (b : Books) (xs : List BooksMove) : Books := xs.foldl step b

/-- How many records have gone in a certain way. -/
def records (b : Books) (p : Fate → Bool) : Nat :=
  ((b.batches.filter (p ·.fate)).map (·.content.records.size)).sum

/-- How many drops have been reported in a certain way. -/
def drops (b : Books) (p : Fate → Bool) : Nat :=
  ((b.batches.filter (p ·.fate)).map (·.content.dropped.toNat)).sum

end Books

/-! ### Counters that do not run over -/

theorem toNat_add_of_lt {c : UInt64} {k n : Nat} (h : c + .ofNat k = .ofNat n) (hk : k ≤ n)
    (hn : n < UInt64.size) : c.toNat + k = n := by
  have heq := congrArg UInt64.toNat h
  have hc := c.toNat_lt
  simp only [UInt64.toNat_add, UInt64.toNat_ofNat', UInt64.size] at heq hn
  omega

theorem toNat_of_lt {c d : UInt64} {n : Nat} (h : c = .ofNat n + d)
    (hn : n + d.toNat < UInt64.size) : c.toNat = n + d.toNat := by
  simp only [h, UInt64.toNat_add, UInt64.toNat_ofNat', UInt64.size] at hn ⊢
  omega

/-! ### What leaves the queue -/

/-- All that has left the queue has been collected, drained or discarded. -/
theorem sum_fates (f : Batch → Nat) (xs : List Batch) :
    ((xs.filter (·.fate.isCollected)).map f).sum +
        ((xs.filter (·.fate = .drained)).map f).sum +
        ((xs.filter (·.fate = .discarded)).map f).sum =
      (xs.map f).sum := by
  induction xs with
  | nil => rfl
  | cons x xs ih =>
    obtain ⟨fate, d⟩ := x
    cases fate <;> simp [List.filter_cons] <;> omega

theorem sum_map_set {α : Type} {f : α → Nat} {l : List α} {k n : Nat} {a b : α} (h : l[k]? = some a)
    (hf : f b = f a + n) : ((l.set k b).map f).sum = (l.map f).sum + n := by
  induction l generalizing k with
  | nil => cases h
  | cons x l ih =>
    cases k with
    | zero =>
      cases h
      simp only [List.set_cons_zero, List.map_cons, List.sum_cons, hf]
      omega
    | succ k =>
      simp only [List.set_cons_succ, List.map_cons, List.sum_cons, ih h]
      omega

/-- What has left the queue, what it has let in and how often tracing has been resumed. -/
structure Balanced (m : Machine) (gone : List Drained) (accepted : List Record) (resumptions : Nat) :
    Prop where
  kept : accepted = gone.flatMap (·.records.toList) ++ m.tracer.queue.records.toList
  markers : accepted.countP Record.isMarker = m.suspensions + resumptions
  written : m.tracer.tally.written + .ofNat (m.suspensions + resumptions) = .ofNat accepted.length
  dropped : m.tracer.tally.dropped =
    .ofNat (gone.map (·.dropped.toNat)).sum + m.tracer.queue.dropped
  registered : m.suspensions < UInt64.size →
    m.tracer.tally.registered = .ofNat (announced accepted).length

namespace Balanced
variable {m m' : Machine} {gone : List Drained} {accepted : List Record} {n : Nat}

theorem new (id : Nat) (s : Settings) (hasHandler : Bool) :
    Balanced (.new (.new id s hasHandler)) [] [] 0 :=
  ⟨rfl, rfl, rfl, rfl, fun _ => rfl⟩

theorem wrote (h : Balanced m gone accepted n) {epoch? : Option UInt64} {news : List Record}
    {drops : Nat} {told : List UInt32} (hw : Machine.Wrote epoch? m m' news drops told)
    (hopen : m.suspensions < UInt64.size → m.tracer.queue.admits epoch? = true) :
    Balanced m' gone (accepted ++ news) n where
  kept := by rw [hw.posts.records, h.kept, List.append_assoc]
  markers := by
    rw [List.countP_append, h.markers, hw.suspensions,
      List.countP_eq_zero.mpr fun r hr => by simp [hw.posts.unmarked r hr], Nat.add_zero]
  written := by
    rw [hw.posts.written, hw.suspensions, List.length_append, UInt64.ofNat_add accepted.length,
      ← h.written]
    ac_rfl
  dropped := by
    rw [hw.posts.dropped, hw.posts.unreported, h.dropped, UInt64.add_assoc]
  registered hn := by
    rw [hw.suspensions] at hn
    rw [hw.posts.registered, h.registered hn, announced_append, hw.posts.announced,
      if_pos (hopen hn), List.length_append, UInt64.ofNat_add]

theorem marked (h : Balanced m gone accepted n) {n' : Nat} {r : Record} (hr : r.isMarker = true)
    (hq : m'.tracer.queue.records.toList = m.tracer.queue.records.toList ++ [r])
    (hd : m'.tracer.queue.dropped = m.tracer.queue.dropped)
    (ht : m'.tracer.tally = m.tracer.tally) (hle : m.suspensions ≤ m'.suspensions)
    (hn : m'.suspensions + n' = m.suspensions + n + 1) :
    Balanced m' gone (accepted ++ [r]) n' where
  kept := by rw [hq, h.kept, List.append_assoc]
  markers := by simp [List.countP_append, h.markers, hr, hn]
  written := by
    rw [ht, hn, UInt64.ofNat_add, ← UInt64.add_assoc, h.written, List.length_append,
      UInt64.ofNat_add]
    rfl
  dropped := by rw [ht, hd, h.dropped]
  registered hn' := by
    have hcreated : announced [r] = [] := by
      have hr' : r.isOf .threadCreated = false := by
        rw [Record.isMarker, Bool.or_eq_true] at hr
        rcases hr with hr | hr <;> exact Record.isOf_eq hr _
      simp [announced, hr']
    rw [ht, h.registered (Nat.lt_of_le_of_lt hle hn'), announced_append, hcreated,
      List.append_nil]

theorem emptied (h : Balanced m gone accepted n) (hq : m'.tracer.queue.records = #[])
    (hd : m'.tracer.queue.dropped = 0) (ht : m'.tracer.tally = m.tracer.tally)
    (hs : m'.suspensions = m.suspensions) :
    Balanced m' (gone ++ [m.tracer.queue.content]) accepted n where
  kept := by simp [h.kept, hq, Queue.content]
  markers := by rw [hs]; exact h.markers
  written := by rw [ht, hs]; exact h.written
  dropped := by
    rw [ht, h.dropped, hd, List.map_append, List.sum_append, UInt64.ofNat_add]
    simp [Queue.content]
  registered hn := by
    rw [hs] at hn
    rw [ht, h.registered hn]

/-- A move of a run. -/
theorem step (h : Balanced m gone accepted n) (hs : m.Steady)
    (ht : m.suspensions < UInt64.size → m.InTime) (x : Move) :
    Balanced (m.step x) (gone ++ (m.batches x).map Batch.content) (accepted ++ m.news x)
      (if m.resumes x then n + 1 else n) := by
  have hflow := hs.flow x
  generalize m.step x = m', m.news x = news at hflow
  cases hflow with
  | quiet hx hw =>
    have hbatches : m.batches x = [] ∧ m.resumes x = false := by
      cases x <;> simp_all [Machine.batches, Machine.resumes, Machine.controls]
    rw [hbatches.1, hbatches.2, List.map_nil, List.append_nil]
    exact h.wrote hw fun _ => rfl
  | @advance who a rest m' news drops told hact hw =>
    have hopen : m.suspensions < UInt64.size → m.tracer.queue.admits a.stage.epoch? = true := by
      intro hn
      have ha : a ∈ m.active who.id := by rw [hact]; exact List.mem_cons_self
      rw [Queue.admits, Option.all_eq_true]
      intro e he
      rw [(ht hn).coupled.keepsOut ((ht hn).precedes _ a ha e he)]
      rfl
    rw [show m.batches (.advance who) = [] from rfl, List.map_nil, List.append_nil]
    exact h.wrote hw hopen
  | suspend hsus =>
    rw [show m.batches .suspend = [] from rfl, List.map_nil, List.append_nil]
    exact h.marked rfl (by simp [Queue.push]) rfl rfl (Nat.le_succ _) (Nat.add_right_comm ..)
  | resume hsus =>
    have hresumes : m.resumes .resume = true := hsus
    rw [hresumes, show m.batches .resume = [] from rfl, List.map_nil, List.append_nil]
    exact h.marked rfl (by simp [Queue.push]) (by simp [Queue.push]) rfl (Nat.le_refl _) rfl
  | @reset l hsus =>
    rw [Machine.batches, hsus, List.append_nil]
    exact h.emptied rfl rfl rfl rfl
  | drain =>
    rw [List.append_nil]
    exact h.emptied rfl rfl rfl rfl

end Balanced

namespace Books
variable {b : Books}

/-- The books of a run. Collectors have counted what has been collected. -/
structure Kept (b : Books) : Prop where
  steady : b.machine.Steady
  inTime : b.machine.suspensions < UInt64.size → b.machine.InTime
  balanced : Balanced b.machine (b.batches.map Batch.content) b.accepted b.resumptions
  records : (b.collectors.map (·.counts.records)).sum = b.records Fate.isCollected
  drops : (b.collectors.map (·.counts.dropped)).sum = b.drops Fate.isCollected

namespace Kept

theorem new (id : Nat) (s : Settings) (hasHandler : Bool) :
    (Books.new (.new id s hasHandler)).Kept :=
  ⟨.new id s hasHandler, fun _ => .new id s hasHandler, .new id s hasHandler, rfl, rfl⟩

theorem inTime_step (h : b.Kept) (x : Move)
    (hn : (b.machine.step x).suspensions < UInt64.size) : (b.machine.step x).InTime :=
  (h.inTime (Nat.lt_of_le_of_lt (Machine.suspensions_le_step x) hn)).step x hn

/-- No collector gets what leaves the queue in a move of its own. -/
theorem batches_not_collected (m : Machine) (x : Move) :
    (m.batches x).filter (·.fate.isCollected) = [] := by
  cases x <;> simp only [Machine.batches] <;> first | rfl | (split <;> rfl)

theorem step (h : b.Kept) (x : BooksMove) : (b.step x).Kept := by
  cases x with
  | move x =>
    refine ⟨h.steady.step x, h.inTime_step x, ?_, ?_, ?_⟩
    · simp only [Books.step, List.map_append]
      exact h.balanced.step h.steady h.inTime x
    · simpa [Books.step, Books.records, batches_not_collected] using h.records
    · simpa [Books.step, Books.drops, batches_not_collected] using h.drops
  | hire timeline listener =>
    refine ⟨h.steady, h.inTime, h.balanced, ?_, ?_⟩
    · show _ = b.records Fate.isCollected
      simp [Books.step, Collector.new, Collection.zero, ← h.records]
    · show _ = b.drops Fate.isCollected
      simp [Books.step, Collector.new, Collection.zero, ← h.drops]
  | collect k =>
    simp only [Books.step]
    split
    · exact h
    · rename_i c hc
      refine ⟨h.steady.step .drain, h.inTime_step .drain, ?_, ?_, ?_⟩
      · rw [List.map_append]
        exact h.balanced.emptied rfl rfl rfl rfl
      · rw [sum_map_set hc (c.collect_records _), h.records]
        simp [Books.records, Fate.isCollected, Queue.content]
      · rw [sum_map_set hc (c.collect_dropped _), h.drops]
        simp [Books.drops, Fate.isCollected, Queue.content]
  | attend k timeline feed =>
    simp only [Books.step]
    split
    · exact h
    · rename_i c hc
      have hcounts : ∀ f : Collector → Nat, f ⟨c.counts, timeline, feed⟩ = f c →
          ((b.collectors.set k ⟨c.counts, timeline, feed⟩).map f).sum = (b.collectors.map f).sum :=
        fun f hf => sum_map_set (n := 0) hc hf
      exact ⟨h.steady, h.inTime, h.balanced, (hcounts (·.counts.records) rfl).trans h.records,
        (hcounts (·.counts.dropped) rfl).trans h.drops⟩

theorem run (h : b.Kept) (xs : List BooksMove) : (b.run xs).Kept := by
  induction xs generalizing b with
  | nil => exact h
  | cons x xs ih => exact ih (h.step x)

end Kept

end Books

/-- All events are accounted for, whatever hooks are called on whatever threads, however tracing is
suspended, resumed and reset and whoever drains the queue. What the queue has let in leaves it once
and in the same order. As long as there are fewer than `UInt64.size` of them, the records written and
the markers of the suspensions and their ends are those that have been collected, drained and
discarded and those in the queue, the drops are those that have been reported, those that have been
discarded and those still to be reported, and the registrations are the records that tell of one. -/
theorem events_are_accounted_for (id : Nat) (s : Settings) (hasHandler : Bool)
    (xs : List BooksMove) :
    let b := (Books.new (.new id s hasHandler)).run xs
    let t := b.machine.tracer
    b.accepted = b.batches.flatMap (·.content.records.toList) ++ t.queue.records.toList ∧
    (b.accepted.length < UInt64.size →
      t.tally.written.toNat + b.machine.suspensions + b.resumptions =
        (b.collectors.map (·.counts.records)).sum + b.records (· = .drained) +
          t.queue.records.size + b.records (· = .discarded) ∧
      t.tally.registered.toNat = b.accepted.countP (·.isOf .threadCreated)) ∧
    ((b.collectors.map (·.counts.dropped)).sum + b.drops (· = .drained) + t.queue.dropped.toNat +
        b.drops (· = .discarded) < UInt64.size →
      t.tally.dropped.toNat =
        (b.collectors.map (·.counts.dropped)).sum + b.drops (· = .drained) + t.queue.dropped.toNat +
          b.drops (· = .discarded)) := by
  intro b t
  have hkept : b.Kept := (Books.Kept.new id s hasHandler).run xs
  have hbalanced := hkept.balanced
  have hlength : b.accepted.length = (b.batches.map (·.content.records.size)).sum +
      t.queue.records.size := by
    simp [hbalanced.kept, List.length_flatMap, t, Function.comp_def]
  have hrecords : b.records Fate.isCollected + b.records (· = .drained) +
      b.records (· = .discarded) = _ := sum_fates (·.content.records.size) b.batches
  have hdrops : b.drops Fate.isCollected + b.drops (· = .drained) + b.drops (· = .discarded) = _ :=
    sum_fates (·.content.dropped.toNat) b.batches
  have hmarkers : b.machine.suspensions + b.resumptions ≤ b.accepted.length :=
    hbalanced.markers ▸ List.countP_le_length
  rw [hkept.records, hkept.drops]
  refine ⟨by simpa [List.flatMap_map] using hbalanced.kept, fun hn => ⟨?_, ?_⟩, fun hn => ?_⟩
  · have hwritten : t.tally.written.toNat + (b.machine.suspensions + b.resumptions) =
        b.accepted.length := toNat_add_of_lt hbalanced.written hmarkers hn
    omega
  · have hle : (announced b.accepted).length ≤ b.accepted.length := by
      simpa [announced] using List.length_filter_le ..
    rw [hbalanced.registered (by omega), UInt64.toNat_ofNat_of_lt' (by omega), announced,
      List.length_map, List.countP_eq_length_filter]
  · have hdropped : t.tally.dropped.toNat = (b.batches.map (·.content.dropped.toNat)).sum +
        t.queue.dropped.toNat := by
      refine toNat_of_lt (by simpa [Function.comp_def] using hbalanced.dropped) ?_
      omega
    omega

/-- A marker's entry finds the queue full, which a collector empties then. Its exit is drained with
the marker of a suspension, and two markers are discarded. -/
theorem events_are_accounted_for_overflow :
    let hook (h : Hook) : List BooksMove := ([.call ⟨0, none⟩ ⟨h, ⟨1⟩, none⟩ true] ++
      List.replicate 5 (.advance ⟨0, none⟩) : List Move).map .move
    let xs : List BooksMove := hook .markerEntry ++ [.hire none false, .collect 0] ++
      hook .markerExit ++ [.move .suspend, .move .drain, .move .resume, .move .suspend,
        .move (.reset ⟨1, 1, 1⟩)]
    let b := (Books.new (.new 0 { Settings.default with bufferCapacity := 1 } false)).run xs
    let t := b.machine.tracer
    (b.accepted.length = 5 ∧ b.drops Fate.isCollected = 1 ∧ b.records Fate.isCollected = 1 ∧
      b.records (· = .drained) = 2 ∧ b.records (· = .discarded) = 2) ∧
    t.tally.written.toNat + b.machine.suspensions + b.resumptions =
      (b.collectors.map (·.counts.records)).sum + b.records (· = .drained) +
        t.queue.records.size + b.records (· = .discarded) ∧
    t.tally.registered.toNat = b.accepted.countP (·.isOf .threadCreated) ∧
    t.tally.dropped.toNat =
      (b.collectors.map (·.counts.dropped)).sum + b.drops (· = .drained) + t.queue.dropped.toNat +
        b.drops (· = .discarded) := by
  intro hook xs b t
  have hamounts : b.accepted.length = 5 ∧ b.drops Fate.isCollected = 1 ∧
      b.records Fate.isCollected = 1 ∧ b.records (· = .drained) = 2 ∧
      b.records (· = .discarded) = 2 := by decide +kernel
  have hrecords : b.accepted.length < UInt64.size := by decide +kernel
  have hdrops : (b.collectors.map (·.counts.dropped)).sum + b.drops (· = .drained) +
      t.queue.dropped.toNat + b.drops (· = .discarded) < UInt64.size := by decide +kernel
  obtain ⟨-, hwritten, hdropped⟩ :=
    events_are_accounted_for 0 { Settings.default with bufferCapacity := 1 } false xs
  exact ⟨hamounts, (hwritten hrecords).1, (hwritten hrecords).2, hdropped hdrops⟩

end MethodTrace
