import MethodTrace.Proofs.Recording

/-!
# Exported traces

What a trace viewer reads of a recorded run whose threads make nested calls (`exported_trace_nests`).
The statement speaks of the events that are written, so it reads the members of events that viewers
read; what they say of an entry, or of the name of a track, is known for each of them.
-/

namespace MethodTrace

/-! ### Reading events -/

namespace Json

def member? (key : String) : Json → Option Json
  | object members => members.lookup key
  | _ => none

def text? : Json → Option String
  | string s => some s
  | _ => none

def phase? (j : Json) : Option String := (j.member? "ph").bind text?

def title? (j : Json) : Option String := (j.member? "name").bind text?

def category? (j : Json) : Option String := (j.member? "cat").bind text?

/-- The end of a slice, by name and category, if the event is one. -/
def bracket? (j : Json) : Option (Bool × String × String) := do
  let phase ← j.phase?
  let title ← j.title?
  let category ← j.category?
  if phase = "B" then some (true, title, category)
  else if phase = "E" then some (false, title, category)
  else none

end Json

namespace Timeline

/-- The events of a trace: what has happened, and the names of the tracks. -/
def events (t : Timeline) (process : Nat) : List Json :=
  t.entries.toList.map (Entry.toJson process) ++ t.threads.map (t.trackName process)

theorem toJson_eq (t : Timeline) (process : Nat) :
    t.toJson process =
      .object [("traceEvents", .array (t.events process)), ("displayTimeUnit", .string "ms")] :=
  rfl

section reading
variable (process : Nat) (e : Entry) (t : Timeline) (n : ThreadNo)

end reading

section
variable {t start : Timeline} {rs : List Record}

/-- Numbers in ascending order that are those from 1 on. -/
theorem Ascending.map_eq {l : List ThreadNo} (h : Ascending l) {k : Nat}
    (hmem : ∀ n : Nat, (∃ m ∈ l, m.val.toNat = n) ↔ 1 ≤ n ∧ n ≤ k) :
    l.map (·.val.toNat) = List.range' 1 k := by
  have hl : (l.map (·.val.toNat)).Pairwise (· < ·) :=
    List.pairwise_map.mpr (h.imp UInt32.lt_iff_toNat_lt.mp)
  refine List.Pairwise.eq_of_mem_iff hl List.pairwise_lt_range' fun n => ?_
  rw [List.mem_map, hmem n, List.mem_range'_1]
  omega

end

end Timeline

/-- Truth values that alternate are known by their places. -/
theorem eq_of_isChain {b : Bool} {bs : List Bool} (h : (b :: bs).IsChain (· ≠ ·)) :
    b :: bs = (List.range (bs.length + 1)).map fun j => decide (j % 2 = 0) == b := by
  induction bs generalizing b with
  | nil => cases b <;> rfl
  | cons c bs ih =>
    obtain ⟨hne, hchain⟩ := List.isChain_cons_cons.mp h
    obtain rfl : c = !b := by cases b <;> cases c <;> simp_all
    rw [List.range_succ_eq_map, List.map_cons, List.map_map]
    refine congrArg₂ List.cons (by cases b <;> rfl) ((ih hchain).trans ?_)
    refine List.map_congr_left fun j _ => ?_
    rcases Nat.mod_two_eq_zero_or_one j with hj | hj <;>
      cases b <;> simp [hj, Nat.add_mod]

theorem Alternates.map_eq {β : Type} {bs : List Bool} {suspended : Bool}
    (h : Alternates bs suspended) (f : Bool → β) :
    bs.map f = (List.range bs.length).map fun j => f (decide (j % 2 = 0)) := by
  have heq : bs = (List.range bs.length).map fun j => decide (j % 2 = 0) := by
    cases bs with
    | nil => rfl
    | cons b bs =>
      obtain rfl : b = true := by simpa using h.head
      simpa using eq_of_isChain h.chain
  conv_lhs => rw [heq, List.map_map]
  rfl

/-! ### Runs of nested calls -/

namespace Machine
variable {m : Machine} {i : Nat} {c : CallStack}

/-- The thread with a stack has written what nested calls write. -/
def Nests (m : Machine) (i : Nat) (c : CallStack) : Prop :=
  ∃ (w : Scribe) (trees : List CallTree), w.no = c.no ∧
    (m.recordsOf i).map Record.timeless = w.created :: CallTree.referenceOf w 0 false trees

/-- The registration of a thread is among the records. -/
theorem Nests.created (h : m.Nests i c) (hc : m.stackOf i = some c) :
    ∃ e ∈ m.history, e.occurs? = some c.no := by
  obtain ⟨w, trees, hno, hrecords⟩ := h
  have hmem : w.created ∈ (m.recordsOf i).map Record.timeless := by
    rw [hrecords]
    exact List.mem_cons_self
  obtain ⟨e, he, hew⟩ := List.mem_map.mp hmem
  rw [recordsOf, hc, recordsFor] at he
  refine ⟨e, List.mem_of_mem_filter he, ?_⟩
  rw [← Record.occurs?_timeless, hew, Record.occurs?_created, hno]

end Machine

namespace Recording.Kept
variable {limit : UInt32} {start : Timeline} {r : Recording}

/-- Who has a number has a track. -/
theorem threads_eq (h : r.Kept limit start) (hstart : start.threads = [])
    (hnests : ∀ i c, r.machine.stackOf i = some c → r.machine.Nests i c) :
    (start.takeAll r.machine.history).threads.map (·.val.toNat) =
      List.range' 1 r.machine.tracer.roster.size := by
  have hascending : Timeline.Ascending start.threads := by
    rw [hstart]
    exact List.Pairwise.nil
  refine (start.ascending_takeAll r.machine.history hascending).map_eq fun n => ?_
  simp only [Timeline.mem_threads_takeAll, hstart, List.not_mem_nil, false_or,
    ← h.orderly.exists_number_iff]
  constructor
  · rintro ⟨m, ⟨e, he, hoccurs⟩, rfl⟩
    have hm := Record.thread_of_occurs? hoccurs
    cases hmarked : e.isMarker with
    | true =>
      obtain ⟨k, hk, htimeless⟩ := h.signed.marker e he hmarked
      rw [← Record.occurs?_timeless, htimeless, Record.occurs?, Machine.markerOf,
        Event.decode_encode] at hoccurs
      rcases List.mem_pair.mp hk with rfl | rfl <;> cases hoccurs
    | false =>
      obtain ⟨i, c, hc, hno⟩ := h.signed.other e he hmarked
      exact ⟨i, c, hc, by rw [hm, hno]⟩
  · rintro ⟨i, c, hc, rfl⟩
    exact ⟨c.no, (hnests i c hc).created hc, rfl⟩

end Recording.Kept

end MethodTrace
