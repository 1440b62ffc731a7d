import MethodTrace.Proofs.Books
import MethodTrace.Proofs.Tracks

/-!
# What a collector makes of records

Its counts (`Collection.Tells`) and the entries of its timeline (`Timeline.takeAll_eq_foldl`,
`foldl_add_entries`) depend on nothing but the records that it has processed so far. What it notes of
a drain it notes before it processes the first record (`Collector.collect_eq`).
-/

namespace MethodTrace

/-- The events of those records that decode. -/
def decoded (rs : List Record) : List Event := rs.filterMap fun r => (Event.decode r).toOption

theorem decoded_append (rs rs' : List Record) : decoded (rs ++ rs') = decoded rs ++ decoded rs' :=
  List.filterMap_append

theorem decoded_singleton_ok {r : Record} {e : Event} (h : Event.decode r = .ok e) :
    decoded [r] = [e] := by
  simp [decoded, h, Except.toOption]

theorem decoded_singleton_error {r : Record} {x : DecodeError} (h : Event.decode r = .error x) :
    decoded [r] = [] := by
  simp [decoded, h, Except.toOption]

theorem length_decoded {rs : List Record} (h : ∀ r ∈ rs, ∃ e, Event.decode r = .ok e) :
    (decoded rs).length = rs.length := by
  induction rs with
  | nil => rfl
  | cons r rs ih =>
    obtain ⟨⟨e, he⟩, h⟩ := List.forall_mem_cons.mp h
    rw [← List.singleton_append, decoded_append, decoded_singleton_ok he, List.length_append,
      List.length_append, ih h]
    rfl

/-! ### Counting -/

/-- Every event is of one kind. -/
theorem sum_countP_kind (es : List Event) :
    (Kind.all.map fun k => es.countP (·.kind = k)).sum = es.length := by
  induction es with
  | nil => rfl
  | cons e es ih =>
    simp only [Kind.all, List.map_cons, List.map_nil, List.sum_cons, List.sum_nil] at ih
    simp only [Kind.all, List.map_cons, List.map_nil, List.sum_cons, List.sum_nil, List.countP_cons,
      List.length_cons]
    cases e.kind <;> simp <;> omega

namespace Collection
variable {c : Collection}

theorem lookup_increment (k j : Kind) (l : List (Kind × Nat)) :
    ((increment k l).lookup j).getD 0 = (l.lookup j).getD 0 + if k = j then 1 else 0 := by
  induction l with
  | nil =>
    by_cases hj : k = j
    · simp [increment, hj]
    · simp [increment, List.lookup_cons, hj, beq_eq_false_iff_ne.mpr (Ne.symm hj)]
  | cons p l ih =>
    obtain ⟨i, n⟩ := p
    unfold increment
    by_cases hi : i = k
    · subst hi
      by_cases hj : i = j
      · simp [hj]
      · simp [List.lookup_cons, hj, beq_eq_false_iff_ne.mpr (Ne.symm hj)]
    · rw [if_neg hi]
      by_cases hj : j = i
      · subst hj
        have hkj : ¬ k = j := fun h => hi h.symm
        simp [hkj]
      · simpa only [List.lookup_cons, beq_eq_false_iff_ne.mpr hj] using ih

theorem count_countKind (c : Collection) (k j : Kind) :
    (c.countKind k).count j = c.count j + if k = j then 1 else 0 :=
  lookup_increment k j c.kinds

/-- What is counted of records, batches and drops apart. -/
structure Tells (c : Collection) (rs : List Record) : Prop where
  records : c.records = rs.length
  undecodable : c.undecodable + (decoded rs).length = rs.length
  kinds : ∀ k, c.count k = (decoded rs).countP (·.kind = k)

namespace Tells

theorem zero : Collection.zero.Tells [] := ⟨rfl, rfl, fun _ => rfl⟩

theorem process {c : Collector} {rs : List Record} (h : c.counts.Tells rs) (r : Record) :
    (c.process r).counts.Tells (rs ++ [r]) := by
  have hrecords := c.process_records r
  unfold Collector.process at hrecords ⊢
  rcases hdecode : Event.decode r with x | e
  · have hnil : decoded (rs ++ [r]) = decoded rs := by
      rw [decoded_append, decoded_singleton_error hdecode, List.append_nil]
    refine ⟨?_, ?_, ?_⟩
    · rw [List.length_append, ← h.records]
      rfl
    · have hundecodable := h.undecodable
      rw [hnil, List.length_append, List.length_singleton]
      show c.counts.undecodable + 1 + (decoded rs).length = rs.length + 1
      omega
    · rw [hnil]
      exact h.kinds
  · have hcons : decoded (rs ++ [r]) = decoded rs ++ [e] := by
      rw [decoded_append, decoded_singleton_ok hdecode]
    refine ⟨?_, ?_, ?_⟩
    · rw [List.length_append, ← h.records]
      rfl
    · have hundecodable := h.undecodable
      rw [hcons, List.length_append, List.length_append, List.length_singleton,
        List.length_singleton]
      show c.counts.undecodable + ((decoded rs).length + 1) = rs.length + 1
      omega
    · intro k
      rw [hcons, List.countP_append, ← h.kinds, List.countP_singleton]
      simp only [decide_eq_true_eq]
      exact count_countKind _ e.kind k

/-- The kinds make up all that decodes. -/
theorem sum_count {rs : List Record} (h : c.Tells rs)
    (hrs : ∀ r ∈ rs, ∃ e, Event.decode r = .ok e) :
    c.undecodable = 0 ∧ (Kind.all.map c.count).sum = c.records := by
  have hlength := length_decoded hrs
  have hundecodable := h.undecodable
  have hsum : (Kind.all.map c.count).sum = (decoded rs).length := by
    rw [← sum_countP_kind, List.map_congr_left fun k _ => h.kinds k]
  rw [hsum, h.records]
  omega

end Tells

end Collection

namespace Collector
variable (c : Collector) (d : Drained)

/-- What a collector notes of a drain as such. -/
def note : Collector :=
  let batches := if d.records.isEmpty then c.counts.batches else c.counts.batches + 1
  let dropped := c.counts.dropped + d.dropped.toNat
  { c with counts := { c.counts with batches := batches, dropped := dropped } }

theorem collect_eq : c.collect d = d.records.toList.foldl process (c.note d) := by
  unfold collect note
  split
  · rename_i hempty
    rw [Array.isEmpty_iff.mp hempty]
    rfl
  · rw [← Array.foldl_toList]

theorem process_batches (r : Record) : (c.process r).counts.batches = c.counts.batches := by
  unfold process
  rcases Event.decode r with _ | e <;> rfl

theorem process_feed {c : Collector} {r : Record} {e : Event} (h : Event.decode r = .ok e) :
    (c.process r).feed = c.feed.send e := by
  unfold process
  rw [h]

end Collector

/-! ### Timelines -/

namespace Timeline
variable (t : Timeline)

theorem takeAll_eq_foldl (rs : List Record) : t.takeAll rs = (decoded rs).foldl add t := by
  induction rs generalizing t with
  | nil => rfl
  | cons r rs ih =>
    rw [← List.singleton_append, decoded_append, List.foldl_append, t.takeAll_append [r] rs, ih]
    congr 1
    rcases h : Event.decode r with x | e
    · rw [decoded_singleton_error h]
      simp only [takeAll, List.foldl_cons, List.foldl_nil, take, h]
    · rw [decoded_singleton_ok h]
      simp only [takeAll, List.foldl_cons, List.foldl_nil, take, h]

/-- A timeline whose times count from the first of some events, unless it has begun before. -/
def begun (es : List Event) : Timeline := { t with start := t.start.or (es.head?.map (·.timestamp)) }

/-- An entry depends on the names of methods and on the beginning only. -/
theorem entry?_congr {t t' : Timeline} (hm : t'.methodNames = t.methodNames)
    (hs : t'.start = t.start) : t'.entry? = t.entry? := by
  funext e
  simp only [methodName, hm, hs, entry?]

theorem entry?_begun (e : Event) (es : List Event) : entry? (t.begun (e :: es)) e = t.entry? e := by
  simp only [methodName, begun, entry?]
  rcases t.start with _ | s <;> rfl

/-- What an event adds, if it is no registration. -/
theorem add_entries (e : Event) :
    (t.add e).entries.toList.map some =
      t.entries.toList.map some ++ ([e].filter (·.kind ≠ .threadCreated)).map t.entry? := by
  have hentry : t.entry? e = e.kind.phase.map _ := rfl
  rcases hphase : e.kind.phase with _ | phase
  · have hkind : e.kind = .threadCreated := Kind.eq_of_phase_eq_none hphase
    rw [hphase, Option.map_none] at hentry
    simp [add, hentry, hkind]
  · have hkind : e.kind ≠ .threadCreated := Kind.ne_of_phase_eq_some hphase
    rw [hphase, Option.map_some] at hentry
    simp [add, hentry, hkind]

/-- The entries that become of events: of all but registrations, in their order. -/
def added (es : List Event) : List (Option Entry) :=
  (es.filter (·.kind ≠ .threadCreated)).map ( entry? (t.begun es))

theorem foldl_add_entries (es : List Event) :
    (es.foldl add t).entries.toList.map some = t.entries.toList.map some ++ t.added es := by
  induction es generalizing t with
  | nil => exact (List.append_nil _).symm
  | cons e es ih =>
    have hbegun : entry? ((t.add e).begun es) = entry? (t.begun (e :: es)) := by
      refine entry?_congr rfl ?_
      simp only [begun, add]
      rcases t.start with _ | s <;> rfl
    have hfirst : ([e].filter (·.kind ≠ .threadCreated)).map t.entry? =
        ([e].filter (·.kind ≠ .threadCreated)).map ( entry? (t.begun (e :: es))) := by
      refine List.map_congr_left fun e' he' => ?_
      rw [List.mem_singleton.mp (List.mem_filter.mp he').1, entry?_begun]
    rw [List.foldl_cons, ih, added, hbegun, add_entries, hfirst, List.append_assoc,
      ← List.map_append, ← List.filter_append, List.singleton_append, added]

end Timeline

end MethodTrace
