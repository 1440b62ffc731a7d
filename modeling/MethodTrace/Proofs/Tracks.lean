import Mathlib.Data.List.Basic
import MethodTrace.Collector
import MethodTrace.Proofs.Slices

/-!
# Timelines of records

What a timeline holds when a collector has passed records on to it: the entries that they show
(`takeAll_entries`), the numbers of the threads that occur in ascending order (`mem_threads_takeAll`,
`ascending_takeAll`), and the names that the threads of a tracer had when they were taken over last
(`lookup_labelled`).
-/

namespace MethodTrace

/-- The thread that occurs in a timeline because of the record. -/
def Record.occurs? (r : Record) : Option ThreadNo :=
  match Event.decode r with
  | .ok e => if e.kind = .threadCreated ∨ e.thread ≠ .all then some e.thread else none
  | .error _ => none

namespace Record

@[simp] theorem occurs?_timeless (r : Record) : r.timeless.occurs? = r.occurs? := by
  rw [occurs?, occurs?, Event.decode_timeless]
  rcases Event.decode r with _ | e <;> rfl

theorem thread_of_occurs? {r : Record} {n : ThreadNo} (h : r.occurs? = some n) : n = ⟨r.thread⟩ := by
  unfold occurs? at h
  split at h
  · rename_i e hdecode
    split at h
    · cases h
      exact Event.thread_of_decode hdecode
    · cases h
  · cases h

theorem occurs?_created (w : Scribe) : w.created.occurs? = some w.no := by
  rw [occurs?, Scribe.created, Event.decode_encode]
  rfl

end Record

namespace Timeline

/-! ### Numbers in ascending order -/

def Ascending (l : List ThreadNo) : Prop := l.Pairwise (·.val < ·.val)

theorem mem_insertThread {m n : ThreadNo} {l : List ThreadNo} :
    m ∈ insertThread n l ↔ m = n ∨ m ∈ l := by
  induction l with
  | nil => simp [insertThread]
  | cons k l ih =>
    unfold insertThread
    split
    · rename_i heq
      subst heq
      simp
    · split
      · simp
      · simp only [List.mem_cons, ih]
        exact or_left_comm

theorem Ascending.insertThread {l : List ThreadNo} (h : Ascending l) (n : ThreadNo) :
    Ascending (insertThread n l) := by
  induction l with
  | nil => exact List.pairwise_singleton _ n
  | cons k l ih =>
    obtain ⟨hk, hl⟩ := List.pairwise_cons.mp h
    unfold Timeline.insertThread
    split
    · exact h
    · rename_i hne
      split
      · rename_i hlt
        refine List.pairwise_cons.mpr ⟨fun m hm => ?_, h⟩
        rcases List.mem_cons.mp hm with rfl | hm
        · exact hlt
        · exact UInt32.lt_trans hlt (hk m hm)
      · rename_i hnlt
        refine List.pairwise_cons.mpr ⟨fun m hm => ?_, ih hl⟩
        rcases mem_insertThread.mp hm with rfl | hm
        · have hval : k.val ≠ m.val := fun heq => hne (congrArg ThreadNo.mk heq.symm)
          exact UInt32.lt_of_le_of_ne (UInt32.not_lt.mp hnlt) hval
        · exact hk m hm

/-! ### Taking records in -/

/-- What a collector does for a timeline with a record: what does not decode is left out. -/
def take (t : Timeline) (r : Record) : Timeline :=
  match Event.decode r with
  | .ok e => t.add e
  | .error _ => t

def takeAll (t : Timeline) (rs : List Record) : Timeline := rs.foldl take t

section take
variable (t : Timeline) (r : Record) (rs rs' : List Record)

theorem take_threads :
    (t.take r).threads = (r.occurs?.map (insertThread · t.threads)).getD t.threads := by
  unfold take Record.occurs?
  rcases Event.decode r with _ | e
  · rfl
  · simp only [add, threadsWith]
    split <;> rfl

theorem takeAll_append : t.takeAll (rs ++ rs') = (t.takeAll rs).takeAll rs' := List.foldl_append

theorem mem_threads_takeAll (n : ThreadNo) :
    n ∈ (t.takeAll rs).threads ↔ n ∈ t.threads ∨ ∃ r ∈ rs, r.occurs? = some n := by
  induction rs generalizing t with
  | nil => simp [takeAll]
  | cons r rs ih =>
    have htake : n ∈ (t.take r).threads ↔ n ∈ t.threads ∨ r.occurs? = some n := by
      rw [take_threads]
      cases h : r.occurs? with
      | none => simp
      | some m =>
        simp only [Option.map_some, Option.getD_some, mem_insertThread, Option.some.injEq]
        exact ⟨fun h => h.symm.imp id Eq.symm, fun h => (h.imp id Eq.symm).symm⟩
    have hall : n ∈ (t.takeAll (r :: rs)).threads ↔ _ := ih (t.take r)
    rw [hall, htake, or_assoc]
    simp only [List.mem_cons, exists_eq_or_imp]

theorem ascending_takeAll (h : Ascending t.threads) : Ascending (t.takeAll rs).threads := by
  induction rs generalizing t with
  | nil => exact h
  | cons r rs ih =>
    refine ih (t.take r) ?_
    rw [take_threads]
    cases r.occurs? with
    | none => exact h
    | some n => exact h.insertThread n

end take

/-- A timeline under other names of threads. -/
def relabel (t : Timeline) (labels : List (ThreadNo × String)) : Timeline :=
  { t with threadNames := labels }

theorem takeAll_relabel (t : Timeline) (labels : List (ThreadNo × String)) (rs : List Record) :
    (t.relabel labels).takeAll rs = (t.takeAll rs).relabel labels := by
  induction rs generalizing t with
  | nil => rfl
  | cons r rs ih =>
    have htake : (t.relabel labels).take r = (t.take r).relabel labels := by
      unfold take
      split <;> rfl
    rw [takeAll, List.foldl_cons, htake]
    exact ih (t.take r)

/-! ### The names of threads -/

/-- Names that have been taken over, the latest first. -/
def labelled (names : List (ThreadNo × Option String)) (labels : List (ThreadNo × String)) :
    List (ThreadNo × String) :=
  names.foldl (fun labels (n, name) => name.elim labels fun s => (n, s) :: labels) labels

/-- A thread that is listed once, or always with the same name. -/
theorem lookup_labelled {names : List (ThreadNo × Option String)} {n : ThreadNo}
    {name : Option String} (h : ∀ p ∈ names, p.1 = n → p.2 = name)
    (labels : List (ThreadNo × String)) :
    (labelled names labels).lookup n =
      if n ∈ names.map Prod.fst then name.or (labels.lookup n) else labels.lookup n := by
  induction names generalizing labels with
  | nil => rfl
  | cons p names ih =>
    obtain ⟨k, name'⟩ := p
    have ih := ih fun q hq => h q (List.mem_cons_of_mem _ hq)
    have hcons : labelled ((k, name') :: names) labels =
        labelled names (name'.elim labels fun s => (k, s) :: labels) := rfl
    rw [hcons, ih]
    by_cases hk : n = k
    · obtain rfl : name' = name := h (k, name') List.mem_cons_self hk.symm
      subst hk
      cases name' <;> simp
    · have hlookup : (name'.elim labels fun s => (k, s) :: labels).lookup n = labels.lookup n := by
        cases name' with
        | none => rfl
        | some s => rw [Option.elim_some, List.lookup_cons, beq_eq_false_iff_ne.mpr hk]
      simp only [hlookup, List.map_cons, List.mem_cons, hk, false_or]

end Timeline

/-! ### Collectors -/

namespace Collector
variable (c : Collector)

theorem process_timeline (r : Record) : (c.process r).timeline = c.timeline.map (·.take r) := by
  unfold process Timeline.take
  rcases Event.decode r with _ | e
  · exact Option.map_id'.symm
  · rfl

theorem foldl_process_timeline (rs : List Record) :
    (rs.foldl process c).timeline = c.timeline.map (·.takeAll rs) := by
  induction rs generalizing c with
  | nil => exact Option.map_id'.symm
  | cons r rs ih =>
    rw [List.foldl_cons, ih, process_timeline, Option.map_map]
    rfl

theorem collect_timeline (d : Drained) :
    (c.collect d).timeline = c.timeline.map (·.takeAll d.records.toList) := by
  unfold collect
  dsimp only
  split
  · rename_i hempty
    rw [Array.isEmpty_iff.mp hempty]
    exact Option.map_id'.symm
  · rw [← Array.foldl_toList, foldl_process_timeline]

theorem nameThreads_timeline (t : Tracer) :
    (c.nameThreads t).timeline =
      c.timeline.map fun l => l.relabel (Timeline.labelled t.roster.names l.threadNames) := by
  have hfold : ∀ (names : List (ThreadNo × Option String)) (l : Timeline),
      names.foldl (fun l p => p.2.elim l fun s => l.nameThread p.1 s) l =
        l.relabel (Timeline.labelled names l.threadNames) := by
    intro names
    induction names with
    | nil => exact fun _ => rfl
    | cons p names ih =>
      obtain ⟨n, _ | s⟩ := p
      · exact fun l => ih l
      · exact fun l => ih (l.nameThread n s)
  unfold nameThreads
  dsimp only
  congr 1
  funext l
  rw [← hfold]
  congr 1
  funext l p
  obtain ⟨n, _ | s⟩ := p <;> rfl

end Collector

end MethodTrace
