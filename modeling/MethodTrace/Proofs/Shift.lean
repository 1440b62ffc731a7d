import MethodTrace.Proofs.Genuine
import MethodTrace.Proofs.Intake

/-!
# A collector at work

A run of a tracer with a collector that processes one record after the other, so that anything may
come between two of them: more records, somebody else who drains the queue, or a listener that hangs
up (`Shift`). A batch during which nothing comes between is `Collector.collect` (`run_collecting`).
Whatever comes between, nothing that the collector drains is lost (`collector_passes_on_all_it_drains`).
-/

namespace MethodTrace

/-- The records that had been processed at a moment, if it has come already. -/
def upTo (moment? : Option Nat) (rs : List Record) : List Record :=
  match moment? with
  | none => rs
  | some n => rs.take n

structure Shift where
  machine : Machine
  collector : Collector
  /-- What the collector has drained, in this order. -/
  drains : List Drained
  /-- The records of its last batch that it has not come to yet. -/
  pending : List Record
  processed : List Record
  /-- The events that are no longer on the way: the listener took them, or has hung up. -/
  delivered : List Event
  /-- How many records had been processed when the listener hung up. -/
  hungUpAt : Option Nat
  /-- The timeline that was given away, and how many records had been processed then. -/
  given : Option (Nat × Timeline)

/-- A collector does nothing else while it is at a batch. To run it is to exclude its thread and to
drain until it is told to stop, and then once more. -/
inductive ShiftMove where
  | move (x : Move)
  /-- The collector takes what is in the queue. -/
  | drain
  /-- The collector processes the next record of its batch. -/
  | process
  | nameThreads
  | giveTimeline
  /-- The listener takes the events that wait for it. -/
  | listen
  | hangUp

namespace Feed
variable (f : Feed) (e : Event)

theorem hasListener_send : (f.send e).hasListener = f.hasListener := by cases f <;> rfl

variable {f}

theorem events_of_hasListener (h : f.hasListener = false) : f.events.getD #[] = #[] := by
  cases f <;> first | rfl | cases h

theorem taken_of_hasListener (h : f.hasListener = false) : f.taken = f := by
  cases f <;> first | rfl | cases h

theorem hangUp_of_hasListener (h : f.hasListener = false) : f.hangUp = f := by
  cases f <;> first | rfl | cases h

end Feed

namespace Shift

def new (t : Tracer) (c : Collector) : Shift := ⟨.new t, c, [], [], [], [], none, none⟩

/-- The events that wait for the listener. -/
def waiting (s : Shift) : List Event := (s.collector.feed.events.getD #[]).toList

/-- All events that have been passed on to the listener. -/
def forwarded (s : Shift) : List Event := s.delivered ++ s.waiting

/-- The records that were processed before the listener hung up. -/
def heard (s : Shift) : List Record := upTo s.hungUpAt s.processed

/-- The timeline of the collector, also when it has been given away. -/
def timeline (s : Shift) : Option Timeline := (s.given.map Prod.snd).or s.collector.timeline

/-- The records that were processed before the timeline was given away. -/
def shown (s : Shift) : List Record := upTo (s.given.map Prod.fst) s.processed

/-- One move. Moves that are not possible change nothing. -/
def step (s : Shift) : ShiftMove → Shift
  | .move x => { s with machine := s.machine.step x }
  | .drain =>
    if s.pending.isEmpty then
      let d := s.machine.tracer.queue.content
      { s with
        machine := s.machine.drain
        collector := s.collector.note d
        drains := s.drains ++ [d]
        pending := d.records.toList }
    else s
  | .process =>
    match s.pending with
    | [] => s
    | r :: rest =>
      { s with
        collector := s.collector.process r
        pending := rest
        processed := s.processed ++ [r] }
  | .nameThreads =>
    if s.pending.isEmpty then { s with collector := s.collector.nameThreads s.machine.tracer }
    else s
  | .giveTimeline =>
    if s.pending.isEmpty then
      { s with
        collector := s.collector.giveTimeline
        given := s.given.or (s.collector.timeline.map (s.processed.length, ·)) }
    else s
  | .listen =>
    { s with
      collector := { s.collector with feed := s.collector.feed.taken }
      delivered := s.forwarded }
  | .hangUp =>
    { s with
      collector := { s.collector with feed := s.collector.feed.hangUp }
      delivered := s.forwarded
      hungUpAt := s.hungUpAt.or (some s.processed.length) }

def run (s : Shift) (xs : List ShiftMove) : Shift := xs.foldl step s

@[simp] theorem run_nil (s : Shift) : s.run [] = s := rfl

@[simp] theorem run_cons (s : Shift) (x : ShiftMove) (xs : List ShiftMove) :
    s.run (x :: xs) = (s.step x).run xs := rfl

/-! ### Batches -/

theorem run_process (s : Shift) {rs rest : List Record} (h : s.pending = rs ++ rest) :
    s.run (List.replicate rs.length .process) =
      { s with
        collector := rs.foldl Collector.process s.collector
        pending := rest
        processed := s.processed ++ rs } := by
  induction rs generalizing s with
  | nil =>
    obtain ⟨machine, collector, drains, pending, processed, delivered, hungUpAt, given⟩ := s
    obtain rfl : pending = rest := h
    simp
  | cons r rs ih =>
    rw [List.length_cons, List.replicate_succ, run_cons]
    have hstep : s.step .process = { s with
        collector := s.collector.process r
        pending := rs ++ rest
        processed := s.processed ++ [r] } := by
      rw [step, h, List.cons_append]
    rw [hstep, ih _ rfl]
    simp

/-- A batch during which nothing comes between. -/
theorem run_collecting (s : Shift) (h : s.pending = []) :
    let d := s.machine.tracer.queue.content
    s.run (.drain :: List.replicate d.records.size .process) =
      { s with
        machine := s.machine.drain
        collector := s.collector.collect d
        drains := s.drains ++ [d]
        processed := s.processed ++ d.records.toList } := by
  intro d
  rw [run_cons, ← Array.length_toList, Collector.collect_eq]
  have hpending : (s.step .drain).pending = d.records.toList ++ [] := by
    simp [step, h, d]
  rw [run_process _ hpending]
  simp only [step, h, List.isEmpty_nil, ↓reduceIte, d]

/-! ### What a run preserves -/

variable {s : Shift} {start? : Option Timeline} {listener : Bool}

/-- All that was drained has been processed or is still to be processed, and is counted. -/
structure Counted (s : Shift) : Prop where
  machine : s.machine.Genuine
  drained : ∀ d ∈ s.drains, ∀ r ∈ d.records.toList, r.Genuine
  order : s.processed ++ s.pending = s.drains.flatMap (·.records.toList)
  counts : s.collector.counts.Tells s.processed
  batches : s.collector.counts.batches = s.drains.countP (!·.records.isEmpty)
  dropped : s.collector.counts.dropped = (s.drains.map (·.dropped.toNat)).sum

namespace Counted

theorem new (id : Nat) (settings : Settings) (hasHandler : Bool) (start? : Option Timeline)
    (listener : Bool) :
    (Shift.new (.new id settings hasHandler) (.new start? listener)).Counted :=
  ⟨.new id settings hasHandler, List.forall_mem_nil _, rfl, .zero, rfl, rfl⟩

/-- What concerns no counts. -/
theorem congr {s' : Shift} (h : s.Counted) (hmachine : s'.machine.Genuine)
    (hcounts : s'.collector.counts = s.collector.counts) (hdrains : s'.drains = s.drains)
    (hpending : s'.pending = s.pending) (hprocessed : s'.processed = s.processed) :
    s'.Counted := by
  refine ⟨hmachine, ?_, ?_, ?_, ?_, ?_⟩ <;> simp only [hcounts, hdrains, hpending, hprocessed]
  exacts [h.drained, h.order, h.counts, h.batches, h.dropped]

theorem step (h : s.Counted) (x : ShiftMove) : (s.step x).Counted := by
  cases x with
  | move x => exact h.congr (h.machine.step x) rfl rfl rfl rfl
  | drain =>
    rw [Shift.step]
    split
    case isFalse => exact h
    rename_i hpending
    have horder := h.order
    rw [List.isEmpty_iff.mp hpending, List.append_nil] at horder
    refine ⟨h.machine.step .drain, ?_, ?_,
      ⟨h.counts.records, h.counts.undecodable, h.counts.kinds⟩, ?_, ?_⟩
    · intro d hd
      rcases List.mem_append.mp hd with hd | hd
      · exact h.drained d hd
      · rw [List.mem_singleton.mp hd]
        exact h.machine.queue
    · simp [horder]
    · simp only [Collector.note, List.countP_append, List.countP_singleton, ← h.batches]
      cases s.machine.tracer.queue.content.records.isEmpty <;> rfl
    · simp [Collector.note, h.dropped]
  | process =>
    rw [Shift.step]
    split
    case h_1 => exact h
    rename_i r rest hpending
    have horder := h.order
    rw [hpending] at horder
    refine ⟨h.machine, h.drained, ?_, h.counts.process r, ?_, ?_⟩
    · rw [← horder, List.append_assoc]
      rfl
    · show (s.collector.process r).counts.batches = _
      rw [Collector.process_batches, h.batches]
    · show (s.collector.process r).counts.dropped = _
      rw [Collector.process_dropped, h.dropped]
  | nameThreads =>
    rw [Shift.step]
    split
    · exact h.congr h.machine rfl rfl rfl rfl
    · exact h
  | giveTimeline =>
    rw [Shift.step]
    split
    · exact h.congr h.machine rfl rfl rfl rfl
    · exact h
  | listen | hangUp => exact h.congr h.machine rfl rfl rfl rfl

theorem run (h : s.Counted) (xs : List ShiftMove) : (s.run xs).Counted := by
  induction xs generalizing s with
  | nil => exact h
  | cons x xs ih => exact ih (h.step x)

/-- The collector can decode the record that it comes to next. -/
theorem genuine_of_pending (h : s.Counted) {r : Record} {rest : List Record}
    (hpending : s.pending = r :: rest) : r.Genuine := by
  have hr : r ∈ s.drains.flatMap (·.records.toList) := by
    rw [← h.order, hpending]
    exact List.mem_append_right _ List.mem_cons_self
  obtain ⟨d, hd, hr⟩ := List.mem_flatMap.mp hr
  exact h.drained d hd r hr

theorem decode_processed (h : s.Counted) : ∀ r ∈ s.processed, ∃ e, Event.decode r = .ok e := by
  intro r hr
  have hr : r ∈ s.drains.flatMap (·.records.toList) := by
    rw [← h.order]
    exact List.mem_append_left _ hr
  obtain ⟨d, hd, hr⟩ := List.mem_flatMap.mp hr
  exact (h.drained d hd r hr).decode

end Counted

/-- What has gone to the listener, if there is or was one: the events of all that has been processed,
of which some may wait for it, or of what had been processed when it hung up. -/
inductive Heard (rs : List Record) : Bool → Option Nat → Feed → List Event → Prop
  | nobody (moment? : Option Nat) : Heard rs false moment? .none []
  | listening {events : Array Event} {delivered : List Event}
    (h : delivered ++ events.toList = decoded rs) : Heard rs true none (.open events) delivered
  | gone {n : Nat} (hn : n ≤ rs.length) {f : Feed} (hf : f.hasListener = false) :
    Heard rs true (some n) f (decoded (rs.take n))

namespace Heard
variable {rs : List Record} {moment? : Option Nat} {f : Feed} {delivered : List Event}

theorem send (h : Heard rs listener moment? f delivered) {r : Record} {e : Event}
    (hdecode : Event.decode r = .ok e) :
    Heard (rs ++ [r]) listener moment? (f.send e) delivered := by
  cases h with
  | nobody => exact .nobody moment?
  | @listening events _ h =>
    refine .listening ?_
    rw [decoded_append, decoded_singleton_ok hdecode, ← h, Array.toList_push, List.append_assoc]
  | @gone n hn f hf =>
    have htake : (rs ++ [r]).take n = rs.take n := List.take_append_of_le_length hn
    rw [← htake]
    refine .gone (by rw [List.length_append]; omega) ?_
    rw [Feed.hasListener_send, hf]

theorem taken (h : Heard rs listener moment? f delivered) :
    Heard rs listener moment? f.taken (delivered ++ (f.events.getD #[]).toList) := by
  cases h with
  | nobody => exact .nobody moment?
  | listening h => exact .listening (by rw [← h]; exact List.append_nil _)
  | gone hn hf =>
    rw [Feed.events_of_hasListener hf, Feed.taken_of_hasListener hf, List.append_nil]
    exact .gone hn hf

theorem hangUp (h : Heard rs listener moment? f delivered) :
    Heard rs listener (moment?.or (some rs.length)) f.hangUp
      (delivered ++ (f.events.getD #[]).toList) := by
  cases h with
  | nobody => exact .nobody _
  | @listening events _ h =>
    have hgone : Heard rs true (some rs.length) .hungUp (decoded (rs.take rs.length)) :=
      .gone (Nat.le_refl _) rfl
    rw [List.take_length, ← h] at hgone
    exact hgone
  | gone hn hf =>
    rw [Feed.events_of_hasListener hf, Feed.hangUp_of_hasListener hf, List.append_nil]
    exact .gone hn hf

end Heard

theorem heard_new (t : Tracer) (start? : Option Timeline) (listener : Bool) :
    Heard (new t (.new start? listener)).processed listener
      (new t (.new start? listener)).hungUpAt (new t (.new start? listener)).collector.feed
      (new t (.new start? listener)).delivered := by
  cases listener with
  | false => exact .nobody none
  | true => exact .listening rfl

theorem heard_step (h : Heard s.processed listener s.hungUpAt s.collector.feed s.delivered)
    (hs : s.Counted) (x : ShiftMove) :
    Heard (s.step x).processed listener (s.step x).hungUpAt (s.step x).collector.feed
      (s.step x).delivered := by
  cases x with
  | move x => exact h
  | drain | nameThreads | giveTimeline =>
    rw [step]
    split <;> exact h
  | process =>
    rw [step]
    split
    · exact h
    · rename_i r rest hpending
      obtain ⟨e, hdecode⟩ := (hs.genuine_of_pending hpending).decode
      rw [Collector.process_feed hdecode]
      exact h.send hdecode
  | listen => exact h.taken
  | hangUp => exact h.hangUp

theorem heard_run (h : Heard s.processed listener s.hungUpAt s.collector.feed s.delivered)
    (hs : s.Counted) (xs : List ShiftMove) :
    Heard (s.run xs).processed listener (s.run xs).hungUpAt (s.run xs).collector.feed
      (s.run xs).delivered := by
  induction xs generalizing s with
  | nil => exact h
  | cons x xs ih => exact ih (heard_step h hs x) (hs.step x)

/-- What has been passed on, taken or not. -/
theorem forwarded_of_heard
    (h : Heard s.processed listener s.hungUpAt s.collector.feed s.delivered) :
    s.forwarded = if listener then decoded s.heard else [] := by
  unfold forwarded waiting heard
  generalize s.collector.feed = f, s.hungUpAt = moment?, s.delivered = delivered at h
  cases h with
  | nobody => rfl
  | listening h => exact h
  | gone hn hf =>
    rw [Feed.events_of_hasListener hf]
    exact List.append_nil _

/-- Where the timeline is that a collector was given, if it was given any, and where it has been: it
has taken in all that has been processed, or what had been when it was given away. Only the names of
threads may be others. -/
inductive Shown (rs : List Record) :
    Option Timeline → Option Timeline → Option (Nat × Timeline) → Prop
  | without : Shown rs none none none
  | held (start : Timeline) (labels : List (ThreadNo × String)) :
    Shown rs (some start) (some ((start.takeAll rs).relabel labels)) none
  | given (start : Timeline) (labels : List (ThreadNo × String)) {n : Nat} (hn : n ≤ rs.length) :
    Shown rs (some start) none (some (n, (start.takeAll (rs.take n)).relabel labels))

namespace Shown
variable {rs : List Record} {held? : Option Timeline} {given? : Option (Nat × Timeline)}

theorem take (h : Shown rs start? held? given?) (r : Record) :
    Shown (rs ++ [r]) start? (held?.map (·.take r)) given? := by
  cases h with
  | without => exact .without
  | held start labels =>
    have htake : ((start.takeAll rs).relabel labels).take r =
        (start.takeAll (rs ++ [r])).relabel labels := by
      rw [Timeline.takeAll_append]
      exact Timeline.takeAll_relabel _ labels [r]
    rw [Option.map_some, htake]
    exact .held start labels
  | @given start labels n hn =>
    have htake : (rs ++ [r]).take n = rs.take n := List.take_append_of_le_length hn
    rw [← htake]
    exact .given start labels (by rw [List.length_append]; omega)

theorem relabel (h : Shown rs start? held? given?) (f : Timeline → List (ThreadNo × String)) :
    Shown rs start? (held?.map fun t => t.relabel (f t)) given? := by
  cases h with
  | without => exact .without
  | held start labels => exact .held start (f ((start.takeAll rs).relabel labels))
  | given start labels hn => exact .given start labels hn

theorem give (h : Shown rs start? held? given?) :
    Shown rs start? none (given?.or (held?.map (rs.length, ·))) := by
  cases h with
  | without => exact .without
  | held start labels =>
    have hgiven := Shown.given start labels (Nat.le_refl rs.length)
    rwa [List.take_length] at hgiven
  | given start labels hn => exact .given start labels hn

end Shown

theorem shown_new (t : Tracer) (start? : Option Timeline) (listener : Bool) :
    Shown (new t (.new start? listener)).processed start?
      (new t (.new start? listener)).collector.timeline (new t (.new start? listener)).given := by
  rcases start? with _ | start
  · exact .without
  · exact .held start start.threadNames

theorem shown_step (h : Shown s.processed start? s.collector.timeline s.given) (x : ShiftMove) :
    Shown (s.step x).processed start? (s.step x).collector.timeline (s.step x).given := by
  cases x with
  | move x => exact h
  | listen | hangUp => exact h
  | drain =>
    rw [step]
    split <;> exact h
  | process =>
    rw [step]
    split
    · exact h
    · rw [s.collector.process_timeline]
      exact h.take _
  | nameThreads =>
    rw [step]
    split
    · rw [s.collector.nameThreads_timeline]
      exact h.relabel _
    · exact h
  | giveTimeline =>
    rw [step]
    split
    · exact h.give
    · exact h

theorem shown_run (h : Shown s.processed start? s.collector.timeline s.given)
    (xs : List ShiftMove) :
    Shown (s.run xs).processed start? (s.run xs).collector.timeline (s.run xs).given := by
  induction xs generalizing s with
  | nil => exact h
  | cons x xs ih => exact ih (shown_step h x)

/-- The entries of the timeline, wherever it is. -/
theorem entries_of_shown (h : Shown s.processed start? s.collector.timeline s.given) :
    s.timeline.isSome = start?.isSome ∧
    ∀ start ∈ start?, ∀ t ∈ s.timeline, t.entries.toList.map some =
      start.entries.toList.map some ++ start.added (decoded s.shown) := by
  have hentries : ∀ (start : Timeline) (labels : List (ThreadNo × String)) (rs : List Record),
      ((start.takeAll rs).relabel labels).entries.toList.map some =
        start.entries.toList.map some ++ start.added (decoded rs) := by
    intro start labels rs
    rw [Timeline.takeAll_eq_foldl]
    exact start.foldl_add_entries (decoded rs)
  unfold timeline shown
  generalize s.collector.timeline = held?, s.given = given? at h
  cases h with
  | without => exact ⟨rfl, fun start hstart => nomatch hstart⟩
  | held start labels =>
    refine ⟨rfl, ?_⟩
    rintro _ ⟨⟩ _ ⟨⟩
    exact hentries start labels s.processed
  | @given start labels n hn =>
    refine ⟨rfl, ?_⟩
    rintro _ ⟨⟩ _ ⟨⟩
    exact hentries start labels (s.processed.take n)

end Shift

/-- Whatever threads do with a tracer, however its control is used and whoever else drains it, all that
a collector drains can be decoded. It has processed that in the order in which it drained it, but for
what is left of its last batch, and its counts are right: of records, all and by their kinds, of
batches with anything in them, and of the drops that were reported, as far as counters of 64 bits go,
which is as long as each of these numbers is below `UInt64.size`. If it was given a listener, it has
passed on to it the event of every record processed before the listener hung up, and no other. If it
was given a timeline, the timeline has the entry of every event processed before it was taken away,
but registrations, behind those that it had, whether or not there is a listener. -/
theorem collector_passes_on_all_it_drains (id : Nat) (settings : Settings) (hasHandler : Bool)
    (start? : Option Timeline) (listener : Bool) (xs : List ShiftMove) :
    let s := (Shift.new (.new id settings hasHandler) (.new start? listener)).run xs
    let counts := s.collector.counts
    (∀ d ∈ s.drains, ∀ r ∈ d.records.toList, ∃ e, Event.decode r = .ok e) ∧
    s.processed ++ s.pending = s.drains.flatMap (·.records.toList) ∧
    (counts.undecodable = 0 ∧
      counts.records + s.pending.length = (s.drains.map (·.records.size)).sum ∧
      counts.records = (Kind.all.map counts.count).sum ∧
      (∀ k, counts.count k = (decoded s.processed).countP (·.kind = k)) ∧
      counts.batches = s.drains.countP (!·.records.isEmpty) ∧
      counts.dropped = (s.drains.map (·.dropped.toNat)).sum) ∧
    s.forwarded = (if listener then decoded s.heard else []) ∧
    s.timeline.isSome = start?.isSome ∧
    ∀ start ∈ start?, ∀ t ∈ s.timeline, t.entries.toList.map some =
      start.entries.toList.map some ++ start.added (decoded s.shown) := by
  intro s counts
  have hcounted : s.Counted := (Shift.Counted.new id settings hasHandler start? listener).run xs
  have hheard : Shift.Heard s.processed listener s.hungUpAt s.collector.feed s.delivered :=
    Shift.heard_run (Shift.heard_new _ start? listener)
      (.new id settings hasHandler start? listener) xs
  have hshown : Shift.Shown s.processed start? s.collector.timeline s.given :=
    Shift.shown_run (Shift.shown_new _ start? listener) xs
  obtain ⟨hundecodable, hsum⟩ := hcounted.counts.sum_count hcounted.decode_processed
  have hsizes : (s.processed ++ s.pending).length = (s.drains.map (·.records.size)).sum := by
    rw [hcounted.order, List.length_flatMap]
    simp
  refine ⟨fun d hd r hr => (hcounted.drained d hd r hr).decode, hcounted.order,
    ⟨hundecodable, ?_, hsum.symm, hcounted.counts.kinds, hcounted.batches, hcounted.dropped⟩,
    Shift.forwarded_of_heard hheard, Shift.entries_of_shown hshown⟩
  rw [hcounted.counts.records, ← List.length_append, hsizes]

/-- The listener hangs up behind the first of three records, which tells of a registration. -/
example :
    let hook (h : Hook) : List ShiftMove :=
      (.call ⟨0, none⟩ ⟨h, ⟨1⟩, none⟩ true :: List.replicate 5 (.advance ⟨0, none⟩)).map .move
    let s := (Shift.new (.new 0 .default false) (.new (some .empty) true)).run
      (hook .rootEntry ++ hook .rootExit ++ [.drain, .process, .hangUp, .process, .process,
        .giveTimeline])
    s.collector.counts.records = 3 ∧ s.forwarded.map (·.kind) = [.threadCreated] ∧
      s.timeline.map (·.entries.toList.map (·.phase)) = some [.begins, .ends] := by
  decide +kernel

end MethodTrace
