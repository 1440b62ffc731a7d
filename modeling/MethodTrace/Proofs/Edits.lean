import Mathlib.Data.Finset.Sort
import MethodTrace.Proofs.Export
import MethodTrace.Proofs.Rounding

/-!
# What is written of a timeline

A timeline begins empty, then anything is done to it in any order (`Edit`). What is written of it is
told from what has been done so far (`Edit.document`): names of methods are those in force when an
event was added, names of threads those in force when it is written, and times count from the first
event that was accepted, even if that became no entry. A time is a number of nanoseconds, rounded, of
which a thousandth is taken and rounded again (`exists_nearest_time`). `Timeline.Tells` is what the
timeline knows of all this, and each step preserves it (`Tells.edit`).
-/

namespace MethodTrace

/-- What can be done to a timeline. -/
inductive Edit where
  | add (e : Event)
  | addRecord (r : Record)
  | nameMethod (m : MethodId) (name : String)
  | nameThread (n : ThreadNo) (name : String)
  | write
deriving DecidableEq

theorem Timestamp.since_eq (t s : Timestamp) :
    t.since s = ⟨.ofNat (t.nanos.toNat - s.nanos.toNat)⟩ := by
  rw [since]
  split
  · rename_i hle
    rw [← UInt64.toNat_sub_of_le _ _ hle, UInt64.ofNat_toNat]
  · rename_i hlt
    have : t.nanos.toNat - s.nanos.toNat = 0 := by
      rw [UInt64.le_iff_toNat_le] at hlt
      omega
    rw [this]
    rfl

namespace Edit

/-- The event that is accepted, if one is. -/
def event? : Edit → Option Event
  | add e => some e
  | addRecord r => (Event.decode r).toOption
  | _ => none

/-- The name that is given to a method. -/
def methodName? (m : MethodId) : Edit → Option String
  | nameMethod m' name => if m' = m then some name else none
  | _ => none

/-- The name that is given to the thread of number `n`. -/
def threadName? (n : Nat) : Edit → Option String
  | nameThread n' name => if n'.val.toNat = n then some name else none
  | _ => none

/-- Whether anything is changed. -/
def changes (x : Edit) : Bool :=
  match x with
  | addRecord _ => x.event?.isSome
  | write => false
  | _ => true

/-! ### What has been done so far -/

section
variable (process : Nat) (xs : List Edit)

/-- The events that have been accepted. -/
def accepted : List Event := xs.filterMap event?

/-- When the first event was, of those that have been accepted. -/
def start : Timestamp := ((accepted xs).head?.map (·.timestamp)).getD ⟨0⟩

/-- The name of a method that is in force. -/
def methodTitle (m : MethodId) : String :=
  (xs.filterMap (methodName? m)).getLast?.getD s!"M#{m.val.toNat}"

/-- The name in force of the thread of number `n`. -/
def threadTitle (n : Nat) : String :=
  (xs.filterMap (threadName? n)).getLast?.getD s!"Thread {n}"

/-- The numbers that occur. Number 0 stands for all threads, unless it is registered. -/
def threads : List Nat :=
  (((accepted xs).filter fun e => e.kind = .threadCreated ∨ e.thread.val ≠ 0).map
    (·.thread.val.toNat)).toFinset.sort

/-- How an event is shown: as where something begins, as where it ends, or as an instant. -/
def letter : Kind → String
  | .rootEntry | .methodEntry | .markerEntry => "B"
  | .rootExit | .methodExit | .markerExit => "E"
  | .threadsSuspended | .threadsResumed | .threadCreated => "i"

def category : Kind → String
  | .rootEntry | .rootExit => "root"
  | .methodEntry | .methodExit => "method"
  | .markerEntry | .markerExit => "marker"
  | .threadsSuspended | .threadsResumed | .threadCreated => "tracer"

/-- The name by which an event is written that is accepted after `xs`. -/
def title (e : Event) : String :=
  if e.kind = .threadsSuspended then "THREADS_SUSPENDED"
  else if e.kind = .threadsResumed then "THREADS_RESUMED"
  else methodTitle xs e.method

/-- The microseconds from `start` to `t`, none if `t` is earlier. -/
def time (start t : Timestamp) : Binary64 :=
  (Binary64.ofNat (t.nanos.toNat - start.nanos.toNat)).div (Binary64.ofNat 1000)

/-- What is written of an event that is accepted after `xs`, if times count from `start`. -/
def slice (start : Timestamp) (e : Event) : Json :=
  .object ([
    ("name", .string (title xs e)),
    ("cat", .string (category e.kind)),
    ("ph", .string (letter e.kind)),
    ("ts", .float (time start e.timestamp)),
    ("pid", .int process),
    ("tid", .int e.thread.val.toNat)] ++
    (if e.kind = .threadsSuspended ∨ e.kind = .threadsResumed then [("s", .string "g")] else []) ++
    (e.ret.map fun v => ("args", .object [("return", Timeline.returned v)])).toList)

/-- What is written of an edit after `xs`. -/
def slice? (start : Timestamp) (x : Edit) : Option Json :=
  (x.event?.filter (·.kind ≠ .threadCreated)).map (slice process xs start)

/-- What is written of all edits, each after those before it. -/
def slices (start : Timestamp) : List Json :=
  (List.range xs.length).filterMap fun i => xs[i]?.bind (slice? process (xs.take i) start)

/-- The name of the thread of number `n`, as it is written. -/
def track (n : Nat) : Json :=
  .object [
    ("name", .string "thread_name"),
    ("cat", .string ""),
    ("ph", .string "M"),
    ("ts", .float ⟨0⟩),
    ("pid", .int process),
    ("tid", .int n),
    ("args", .object [("name", .string (threadTitle xs n))])]

/-- What is written after `xs`. -/
def document : Json :=
  .object [
    ("traceEvents", .array (slices process xs (start xs) ++ (threads xs).map (track process xs))),
    ("displayTimeUnit", .string "ms")]

end

/-! ### The times -/

/-- A time is nearest to a thousandth of what is nearest to the number of nanoseconds. -/
theorem exists_nearest_time (start t : Timestamp) : ∃ x : Binary64,
    x.Nearest (t.nanos.toNat - start.nanos.toNat : Nat) ∧
      (time start t).Nearest (x.value / 1000) := by
  have hlt : t.nanos.toNat - start.nanos.toNat < 2 ^ 64 :=
    Nat.lt_of_le_of_lt (Nat.sub_le _ _) t.nanos.toNat_lt
  exact ⟨_, Binary64.micros_nearest hlt⟩

theorem micros_since (t start : Timestamp) : (t.since start).micros = time start t := by
  have hlt : t.nanos.toNat - start.nanos.toNat < 2 ^ 64 :=
    Nat.lt_of_le_of_lt (Nat.sub_le _ _) t.nanos.toNat_lt
  rw [Timestamp.since_eq, Timestamp.micros, UInt64.toNat_ofNat_of_lt' hlt, time]

/-! ### One edit more -/

section
variable (process : Nat) (xs : List Edit) (x : Edit)

theorem accepted_concat : accepted (xs ++ [x]) = accepted xs ++ x.event?.toList := by
  rw [accepted, List.filterMap_append, accepted]
  cases h : x.event? <;> simp [h]

theorem getLast?_filterMap_concat {α : Type} (f : Edit → Option α) :
    ((xs ++ [x]).filterMap f).getLast? = (f x).or (xs.filterMap f).getLast? := by
  rw [List.filterMap_append]
  cases h : f x <;> simp [h]

theorem slices_concat (s : Timestamp) :
    slices process (xs ++ [x]) s = slices process xs s ++ (slice? process xs s x).toList := by
  have hfirst : (List.range xs.length).filterMap
      (fun i => (xs ++ [x])[i]?.bind (slice? process ((xs ++ [x]).take i) s)) =
        slices process xs s := by
    refine List.filterMap_congr fun i hi => ?_
    have hlt : i < xs.length := List.mem_range.mp hi
    rw [List.getElem?_append_left hlt, List.take_append_of_le_length (Nat.le_of_lt hlt)]
  rw [slices, List.length_append, List.length_singleton, List.range_succ, List.filterMap_append,
    hfirst]
  congr 1
  cases h : slice? process xs s x <;> simp [h]

theorem slices_of_accepted (h : accepted xs = []) (s : Timestamp) : slices process xs s = [] := by
  refine List.filterMap_eq_nil_iff.mpr fun i _ => ?_
  rcases hx : xs[i]? with _ | x
  · rfl
  · have hevent : x.event? = none := List.filterMap_eq_nil_iff.mp h x (List.mem_of_getElem? hx)
    rw [Option.bind_some, slice?, hevent]
    rfl

/-- Once an event has been accepted, the beginning is known. -/
theorem slices_start_concat :
    slices process xs (start (xs ++ [x])) = slices process xs (start xs) := by
  rcases h : accepted xs with _ | ⟨e, es⟩
  · rw [slices_of_accepted process xs h, slices_of_accepted process xs h]
  · have hstart : start (xs ++ [x]) = start xs := by
      rw [start, start, accepted_concat, h]
      rfl
    rw [hstart]

theorem length_slices (s : Timestamp) :
    (slices process xs s).length = ((accepted xs).filter (·.kind ≠ .threadCreated)).length := by
  induction xs using List.reverseRecOn with
  | nil => rfl
  | append_singleton xs x ih =>
    rw [slices_concat, accepted_concat, List.filter_append, List.length_append, List.length_append,
      ih, slice?]
    cases x.event? with
    | none => rfl
    | some e => by_cases h : e.kind = .threadCreated <;> simp [h]

end

end Edit

theorem ThreadNo.ne_all_iff {n : ThreadNo} : n ≠ .all ↔ n.val ≠ 0 := by
  rw [not_iff_not]
  exact ⟨congrArg ThreadNo.val, congrArg ThreadNo.mk⟩

namespace Timeline
open Edit

/-- What an edit does. A record that does not decode is refused. -/
def edit (t : Timeline) : Edit → Timeline
  | .add e => t.add e
  | .addRecord r =>
    match t.addRecord r with
    | .ok t' => t'
    | .error _ => t
  | .nameMethod m name => t.nameMethod m name
  | .nameThread n name => t.nameThread n name
  | .write => t

theorem edit_addRecord (t : Timeline) (r : Record) :
    t.edit (.addRecord r) = ((Edit.addRecord r).event?.map t.add).getD t := by
  simp only [edit, addRecord, event?]
  cases Event.decode r <;> rfl

/-- What a timeline is after some edits. -/
structure Tells (t : Timeline) (xs : List Edit) : Prop where
  methodNames : ∀ m, t.methodNames.lookup m = (xs.filterMap (methodName? m)).getLast?
  threadNames : ∀ n, t.threadNames.lookup n = (xs.filterMap (threadName? n.val.toNat)).getLast?
  start : t.start = (accepted xs).head?.map (·.timestamp)
  ascending : Ascending t.threads
  threads : ∀ n, n ∈ t.threads ↔
    ∃ e ∈ accepted xs, (e.kind = .threadCreated ∨ e.thread.val ≠ 0) ∧ e.thread = n
  entries : ∀ process, t.entries.toList.map (Entry.toJson process) =
    slices process xs (Edit.start xs)

namespace Tells
variable {t : Timeline} {xs : List Edit} {x : Edit} {e : Event}

theorem empty : Timeline.empty.Tells [] where
  methodNames _ := rfl
  threadNames _ := rfl
  start := rfl
  ascending := List.Pairwise.nil
  threads n := by simp [Timeline.empty, accepted]
  entries _ := rfl

theorem methodTitle (h : t.Tells xs) (m : MethodId) : t.methodName m = Edit.methodTitle xs m := by
  rw [methodName, h.methodNames]
  rfl

theorem threadTitle (h : t.Tells xs) (n : ThreadNo) :
    t.threadName n = Edit.threadTitle xs n.val.toNat := by
  rw [threadName, h.threadNames]
  rfl

/-- An edit by which no event is accepted. -/
theorem unaccepted {t' : Timeline} (h : t.Tells xs) (hx : x.event? = none)
    (hm : ∀ m, t'.methodNames.lookup m = (x.methodName? m).or (t.methodNames.lookup m))
    (hn : ∀ n, t'.threadNames.lookup n =
      (x.threadName? n.val.toNat).or (t.threadNames.lookup n))
    (hstart : t'.start = t.start) (hthreads : t'.threads = t.threads)
    (hentries : t'.entries = t.entries) : t'.Tells (xs ++ [x]) := by
  have haccepted : accepted (xs ++ [x]) = accepted xs := by
    rw [accepted_concat, hx]
    exact List.append_nil _
  refine ⟨fun m => ?_, fun n => ?_, ?_, ?_, fun n => ?_, fun process => ?_⟩
  · rw [hm, getLast?_filterMap_concat, h.methodNames]
  · rw [hn, getLast?_filterMap_concat, h.threadNames]
  · rw [hstart, haccepted, h.start]
  · rw [hthreads]
    exact h.ascending
  · rw [hthreads, haccepted]
    exact h.threads n
  · rw [hentries, slices_concat, slices_start_concat, h.entries, slice?, hx]
    exact (List.append_nil _).symm

theorem toJson_entry (h : t.Tells xs) {phase : Phase} (hphase : e.kind.phase = some phase)
    (process : Nat) (s : Timestamp) :
    Entry.toJson process ⟨phase, e.kind.category,
        if e.kind.isControl then e.kind.name else t.methodName e.method, e.thread,
        e.timestamp.since s, e.ret⟩ = slice process xs s e := by
  rw [h.methodTitle, Entry.toJson, micros_since]
  obtain ⟨kind, method, thread, timestamp, ret⟩ := e
  cases kind <;> cases hphase <;> rfl

/-- What is added for an event. -/
theorem slice?_eq (h : t.Tells xs) (hx : x.event? = some e) (process : Nat) :
    (t.entry? e).map (Entry.toJson process) = slice? process xs (Edit.start (xs ++ [x])) x := by
  have hstart : t.start.getD e.timestamp = Edit.start (xs ++ [x]) := by
    rw [h.start, Edit.start, accepted_concat, hx]
    cases accepted xs <;> rfl
  have hentry : t.entry? e = e.kind.phase.map _ := rfl
  rw [slice?, hx, hentry, hstart]
  rcases hphase : e.kind.phase with _ | phase
  · have hkind : e.kind = .threadCreated := Kind.eq_of_phase_eq_none hphase
    simp [hkind]
  · have hkind : e.kind ≠ .threadCreated := Kind.ne_of_phase_eq_some hphase
    rw [Option.map_some, Option.map_some, h.toJson_entry hphase,
      Option.filter_some_pos (by simpa using hkind)]
    rfl

theorem add (h : t.Tells xs) (hx : x.event? = some e) (hm : ∀ m, x.methodName? m = none)
    (hn : ∀ n, x.threadName? n = none) : (t.add e).Tells (xs ++ [x]) := by
  have haccepted : accepted (xs ++ [x]) = accepted xs ++ [e] := by
    rw [accepted_concat, hx]
    rfl
  refine ⟨fun m => ?_, fun n => ?_, ?_, ?_, fun n => ?_, fun process => ?_⟩
  · rw [getLast?_filterMap_concat, hm, Option.none_or]
    exact h.methodNames m
  · rw [getLast?_filterMap_concat, hn, Option.none_or]
    exact h.threadNames n
  · rw [haccepted, Timeline.add, h.start]
    cases accepted xs <;> rfl
  · simp only [Timeline.add, threadsWith]
    split
    · exact h.ascending.insertThread e.thread
    · exact h.ascending
  · have hiff : n ∈ threadsWith e t.threads ↔
        n ∈ t.threads ∨ (e.kind = .threadCreated ∨ e.thread.val ≠ 0) ∧ e.thread = n := by
      rw [← ThreadNo.ne_all_iff, threadsWith]
      split
      · rename_i ho
        rw [mem_insertThread, or_comm, eq_comm, and_iff_right ho]
      · rename_i ho
        rw [iff_false_intro fun h => ho (And.left h), or_false]
    rw [show (t.add e).threads = threadsWith e t.threads from rfl, hiff, h.threads, haccepted]
    simp only [List.mem_append, List.mem_singleton, or_and_right, exists_or, exists_eq_left]
  · rw [slices_concat, slices_start_concat, ← h.entries, ← h.slice?_eq hx process]
    simp only [Timeline.add]
    cases t.entry? e <;> simp

theorem edit (h : t.Tells xs) (x : Edit) : (t.edit x).Tells (xs ++ [x]) := by
  cases x with
  | add e => exact h.add rfl (fun _ => rfl) fun _ => rfl
  | addRecord r =>
    rw [edit_addRecord]
    rcases hx : (Edit.addRecord r).event? with _ | e
    · exact h.unaccepted hx (fun _ => rfl) (fun _ => rfl) rfl rfl rfl
    · exact h.add hx (fun _ => rfl) fun _ => rfl
  | nameMethod m name =>
    refine h.unaccepted rfl (fun m' => ?_) (fun _ => rfl) rfl rfl rfl
    simp only [Timeline.edit, nameMethod, methodName?, List.lookup_cons]
    by_cases hm : m' = m
    · simp [hm]
    · simp [beq_eq_false_iff_ne.mpr hm, Ne.symm hm]
  | nameThread n name =>
    refine h.unaccepted rfl (fun _ => rfl) (fun n' => ?_) rfl rfl rfl
    have hval : n.val.toNat = n'.val.toNat ↔ n = n' :=
      ⟨fun h => congrArg ThreadNo.mk (UInt32.toNat_inj.mp h), fun h => by rw [h]⟩
    simp only [Timeline.edit, nameThread, threadName?, List.lookup_cons, hval]
    by_cases hn : n' = n
    · simp [hn]
    · simp [beq_eq_false_iff_ne.mpr hn, Ne.symm hn]
  | write => exact h.unaccepted rfl (fun _ => rfl) (fun _ => rfl) rfl rfl rfl

/-- The numbers that occur, ascending. -/
theorem threads_eq (h : t.Tells xs) : t.threads.map (·.val.toNat) = Edit.threads xs := by
  have hascending : (t.threads.map (·.val.toNat)).Pairwise (· < ·) :=
    List.pairwise_map.mpr (h.ascending.imp UInt32.lt_iff_toNat_lt.mp)
  refine List.Pairwise.eq_of_mem_iff hascending (Finset.sortedLT_sort _).pairwise fun n => ?_
  rw [Edit.threads]
  simp only [List.mem_map, h.threads, Finset.mem_sort, List.mem_toFinset, List.mem_filter,
    decide_eq_true_eq]
  constructor
  · rintro ⟨_, ⟨e, he, ho, rfl⟩, rfl⟩
    exact ⟨e, ⟨he, ho⟩, rfl⟩
  · rintro ⟨e, ⟨he, ho⟩, rfl⟩
    exact ⟨e.thread, ⟨e, he, ho, rfl⟩, rfl⟩

theorem toJson_eq (h : t.Tells xs) (process : Nat) : t.toJson process = document process xs := by
  have htracks : t.threads.map (t.trackName process) =
      (Edit.threads xs).map (track process xs) := by
    rw [← h.threads_eq, List.map_map]
    refine List.map_congr_left fun n _ => ?_
    rw [trackName, h.threadTitle]
    rfl
  rw [Timeline.toJson_eq, events, h.entries, htracks]
  rfl

theorem size_eq (h : t.Tells xs) :
    t.size = ((accepted xs).filter (·.kind ≠ .threadCreated)).length := by
  rw [← length_slices 0, ← h.entries, List.length_map, Array.length_toList]
  rfl

end Tells

/-- What changes nothing leaves the timeline as it is, its beginning included. -/
theorem edit_of_not_changes (t : Timeline) {x : Edit} (h : x.changes = false) : t.edit x = t := by
  cases x with
  | addRecord r =>
    have hx : (Edit.addRecord r).event? = none :=
      Option.isNone_iff_eq_none.mp (Option.isSome_eq_false_iff.mp h)
    rw [edit_addRecord, hx]
    rfl
  | write => rfl
  | _ => cases h

end Timeline

/-- A timeline, and what has been written of it. -/
structure Draft where
  timeline : Timeline
  texts : List String

namespace Draft
variable (process : Nat) (xs : List Edit)

def step (d : Draft) (x : Edit) : Draft where
  timeline := d.timeline.edit x
  texts := if x = .write then d.texts ++ [d.timeline.text process] else d.texts

def run : Draft := xs.foldl (step process) ⟨.empty, []⟩

theorem run_concat (x : Edit) : run process (xs ++ [x]) = (run process xs).step process x := by
  rw [run, List.foldl_append]
  rfl

theorem tells_run : (run process xs).timeline.Tells xs := by
  induction xs using List.reverseRecOn with
  | nil => exact .empty
  | append_singleton xs x ih =>
    rw [run_concat]
    exact ih.edit x

theorem text_run : (run process xs).timeline.text process = (Edit.document process xs).pretty := by
  rw [Timeline.text, (tells_run process xs).toJson_eq]

theorem texts_run :
    (run process xs).texts = ((List.range xs.length).filter fun i => xs[i]? = some .write).map
      fun i => (Edit.document process (xs.take i)).pretty := by
  induction xs using List.reverseRecOn with
  | nil => rfl
  | append_singleton xs x ih =>
    have hfirst : ((List.range xs.length).filter fun i => (xs ++ [x])[i]? = some .write).map
        (fun i => (Edit.document process ((xs ++ [x]).take i)).pretty) = (run process xs).texts := by
      rw [ih, List.filter_congr fun i hi => by
        rw [List.getElem?_append_left (List.mem_range.mp hi)]]
      refine List.map_congr_left fun i hi => ?_
      have hlt : i < xs.length := List.mem_range.mp (List.mem_filter.mp hi).1
      rw [List.take_append_of_le_length (Nat.le_of_lt hlt)]
    rw [run_concat, List.length_append, List.length_singleton, List.range_succ, List.filter_append,
      List.map_append, hfirst, step]
    by_cases hx : x = .write
    · simp [hx, text_run]
    · simp [hx]

theorem timeline_run_filter :
    (run process (xs.filter Edit.changes)).timeline = (run process xs).timeline := by
  induction xs using List.reverseRecOn with
  | nil => rfl
  | append_singleton xs x ih =>
    rw [List.filter_append, run_concat]
    cases hx : x.changes with
    | true =>
      rw [List.filter_cons_of_pos hx, List.filter_nil, run_concat, step, ih]
      rfl
    | false =>
      rw [List.filter_cons_of_neg (by simp [hx]), List.filter_nil, List.append_nil, ih]
      exact (Timeline.edit_of_not_changes _ hx).symm

end Draft

/-- Whatever is done to a timeline in whatever order, what is written of it tells of all that had been
added by then: first every event that had been accepted, but registrations, in their order, by the
name that its method had when it was added, and with the time since the first event of all; then the
threads that had occurred, once each and ascending, by the names that they have when it is written. A
time is the double nearest to a thousandth of the double nearest to the nanoseconds that have passed,
and there are none before the first event. The size of the timeline is the number of the former.
Records that are refused and texts that are written change nothing, so a second text is as the
first. -/
theorem written_texts_tell_what_was_added (process : Nat) (xs : List Edit) :
    let d := Draft.run process xs
    d.timeline.toJson process = Edit.document process xs ∧
    d.texts = ((List.range xs.length).filter fun i => xs[i]? = some .write).map
      (fun i => (Edit.document process (xs.take i)).pretty) ∧
    (∀ start t, ∃ x : Binary64, x.Nearest (t.nanos.toNat - start.nanos.toNat : Nat) ∧
      (Edit.time start t).Nearest (x.value / 1000)) ∧
    d.timeline.size = ((Edit.accepted xs).filter (·.kind ≠ .threadCreated)).length ∧
    (Draft.run process (xs.filter Edit.changes)).timeline = d.timeline ∧
    (Draft.run process (xs ++ [.write, .write])).texts =
      d.texts ++ [(Edit.document process xs).pretty, (Edit.document process xs).pretty] := by
  intro d
  refine ⟨(Draft.tells_run process xs).toJson_eq process, Draft.texts_run process xs,
    Edit.exists_nearest_time, (Draft.tells_run process xs).size_eq,
    Draft.timeline_run_filter process xs, ?_⟩
  have htwice : xs ++ [.write, .write] = xs ++ [.write] ++ [.write] := by simp
  rw [htwice, Draft.run_concat, Draft.run_concat, ← Draft.text_run]
  simp [Draft.step, Timeline.edit, d]

/-- A method is named between two of its events, and a thread only when all has been added. The first
event is a registration, and the last one is earlier. All is written twice. -/
theorem text_of_a_call_and_a_suspension :
    let event (k : Kind) (n : UInt32) (t : UInt64) (v : Option ReturnValue) : Edit :=
      .add ⟨k, ⟨3⟩, ⟨n⟩, ⟨t⟩, v⟩
    let xs := [event .threadCreated 2 1000 none, event .rootEntry 2 4000 none,
      .nameMethod ⟨3⟩ "parse", event .rootExit 2 5501 (some (.int 5)),
      event .threadsSuspended 0 500 none, .nameThread ⟨2⟩ "worker"]
    let text := "\n".intercalate [
      "\x7b",
      "  \"traceEvents\": [",
      "    \x7b",
      "      \"name\": \"M#3\",",
      "      \"cat\": \"root\",",
      "      \"ph\": \"B\",",
      "      \"ts\": 3.0,",
      "      \"pid\": 7,",
      "      \"tid\": 2",
      "    \x7d,",
      "    \x7b",
      "      \"name\": \"parse\",",
      "      \"cat\": \"root\",",
      "      \"ph\": \"E\",",
      "      \"ts\": 4.501,",
      "      \"pid\": 7,",
      "      \"tid\": 2,",
      "      \"args\": \x7b",
      "        \"return\": 5",
      "      \x7d",
      "    \x7d,",
      "    \x7b",
      "      \"name\": \"THREADS_SUSPENDED\",",
      "      \"cat\": \"tracer\",",
      "      \"ph\": \"i\",",
      "      \"ts\": 0.0,",
      "      \"pid\": 7,",
      "      \"tid\": 0,",
      "      \"s\": \"g\"",
      "    \x7d,",
      "    \x7b",
      "      \"name\": \"thread_name\",",
      "      \"cat\": \"\",",
      "      \"ph\": \"M\",",
      "      \"ts\": 0.0,",
      "      \"pid\": 7,",
      "      \"tid\": 2,",
      "      \"args\": \x7b",
      "        \"name\": \"worker\"",
      "      \x7d",
      "    \x7d",
      "  ],",
      "  \"displayTimeUnit\": \"ms\"",
      "\x7d"]
    (Draft.run 7 (xs ++ [.write, .write])).texts = [text, text] := by
  intro event xs text
  obtain ⟨htree, -, -, -, -, htwice⟩ := written_texts_tell_what_was_added 7 xs
  rw [← htree] at htwice
  exact htwice.trans (by decide +kernel)

end MethodTrace
