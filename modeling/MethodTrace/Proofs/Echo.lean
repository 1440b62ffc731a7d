import MethodTrace.Proofs.Forgetting

/-!
# Rosters, queues and tallies that differ in what they have been through

`Roster.Echoes k r r'`: `r` is like `r'`, but its slots are `k` higher since earlier threads have left
call stacks behind. `Queue.Echoes q q'`: the queues hold the same records, each with times of its own.
Whatever is done to both leaves them so. Generations, seals and signals are as they may.
-/

namespace MethodTrace

/-! ### Rosters -/

def Standing.raise (k : Nat) : Standing → Standing
  | registered s => registered (s + k)
  | unregistered => unregistered
  | denied => denied

namespace Roster

/-- The slots of `r` are those of `r'`, and `k` more below them. -/
structure Echoes (k : Nat) (r r' : Roster) : Prop where
  nextNo : r.nextNo = r'.nextNo
  members : r.members = r'.members.map fun p => (p.1, p.2 + k)
  excluded : ∀ i, i ∈ r.excluded ↔ i ∈ r'.excluded
  size : r.callStacks.size = r'.callStacks.size + k
  stack : ∀ s : Nat, r.stack? (s + k) = r'.stack? s

namespace Echoes
variable {k s : Nat} {r r' : Roster} {f : CallStack → CallStack}

theorem slots (h : Echoes k r r') : r.slots = r'.slots.map (· + k) := by
  simp [Roster.slots, h.members, Function.comp_def]

theorem roster_size (h : Echoes k r r') : r.size = r'.size := by
  simp [Roster.size, h.members]

theorem names (h : Echoes k r r') : r.names = r'.names := by
  simp [Roster.names, h.slots, List.filterMap_map, h.stack]

theorem slot? (h : Echoes k r r') (i : Nat) : r.slot? i = (r'.slot? i).map (· + k) := by
  rw [Roster.slot?, h.members, Roster.slot?]
  induction r'.members with
  | nil => rfl
  | cons p ps ih =>
    rw [List.map_cons, List.lookup_cons, List.lookup_cons]
    cases i == p.1 with
    | true => rfl
    | false => exact ih

theorem stackOf (h : Echoes k r r') (i : Nat) : r.stackOf i = r'.stackOf i := by
  rcases hs : r'.slot? i with _ | s
  · rw [stackOf_of_slot?_eq_none hs, stackOf_of_slot?_eq_none (by rw [h.slot?, hs]; rfl)]
  · rw [stackOf_of_slot? hs, stackOf_of_slot? (s := s + k) (by rw [h.slot?, hs]; rfl), h.stack]

theorem lookup (h : Echoes k r r') (i : Nat) : r.lookup i = (r'.lookup i).raise k := by
  have hslot := h.slot? i
  simp only [Roster.slot?] at hslot
  simp only [Roster.lookup, hslot, h.excluded i]
  rcases r'.members.lookup i with _ | s
  · simp only [Option.map_none]
    split <;> rfl
  · rfl

theorem modify (h : Echoes k r r') (s : Nat) (f : CallStack → CallStack) :
    Echoes k (r.modify (s + k) f) (r'.modify s f) where
  nextNo := h.nextNo
  members := h.members
  excluded := h.excluded
  size := by simpa [Roster.modify] using h.size
  stack j := by
    by_cases hj : j = s
    · subst hj
      rw [stack?_modify_self, stack?_modify_self, h.stack]
    · have hj' : j + k ≠ s + k := fun heq => hj (Nat.add_right_cancel heq)
      rw [stack?_modify_of_ne hj', stack?_modify_of_ne hj, h.stack]

/-- What is done to the stacks that have been left behind does not matter. -/
theorem modify_below (h : Echoes k r r') (hs : s < k) : Echoes k (r.modify s f) r' where
  nextNo := h.nextNo
  members := h.members
  excluded := h.excluded
  size := by simpa [Roster.modify] using h.size
  stack j := by
    have hj : j + k ≠ s := by omega
    rw [stack?_modify_of_ne hj, h.stack]

theorem foldl_modify (h : Echoes k r r') (l : List Slot) :
    Echoes k ((l.map (· + k)).foldl (fun r s => r.modify s f) r)
      (l.foldl (fun r s => r.modify s f) r') := by
  induction l generalizing r r' with
  | nil => exact h
  | cons s l ih => exact ih (h.modify s f)

theorem foldl_modify_below (h : Echoes k r r') {l : List Slot} (hl : ∀ s ∈ l, s < k) :
    Echoes k (l.foldl (fun r s => r.modify s f) r) r' := by
  induction l generalizing r with
  | nil => exact h
  | cons s l ih =>
    exact ih (h.modify_below (hl s List.mem_cons_self)) fun j hj => hl j (List.mem_cons_of_mem _ hj)

theorem enlist (h : Echoes k r r') (who : OsThread) : Echoes k (r.enlist who) (r'.enlist who) where
  nextNo := by simp only [Roster.enlist, h.nextNo]
  members := by simp [Roster.enlist, h.members, h.size]
  excluded := h.excluded
  size := by simp only [Roster.enlist, Array.size_push, h.size]; omega
  stack s := by
    have hsize := h.size
    rcases Nat.lt_trichotomy s r'.callStacks.size with hs | rfl | hs
    · have hs' : s + k < r.callStacks.size := by omega
      rw [stack?_enlist_of_lt hs, stack?_enlist_of_lt hs', h.stack]
    · rw [← hsize, stack?_enlist_size, stack?_enlist_size, h.nextNo]
    · have hnone : ∀ (r : Roster) (s : Nat), r.callStacks.size < s → (r.enlist who).stack? s = none :=
        fun r s hs => stack?_eq_none_iff.mpr (by simp only [Roster.enlist, Array.size_push]; omega)
      rw [hnone r' s hs, hnone r (s + k) (by omega)]

/-- A thread that is not registered is registered in both or refused in both. -/
theorem register (h : Echoes k r r') {who : OsThread} (hnone : r'.slot? who.id = none) (q : Quota) :
    Echoes k (r.register who q none).roster (r'.register who q none).roster ∧
      (r.register who q none).quota = (r'.register who q none).quota ∧
      (r.register who q none).slot = (r'.register who q none).slot.map (· + k) := by
  have hlookup' : r'.members.lookup who.id = none := hnone
  have hlookup : r.members.lookup who.id = none := by
    have := h.slot? who.id
    rwa [hnone] at this
  simp only [Roster.register, hlookup, hlookup', h.excluded who.id]
  rcases if who.id ∈ r'.excluded then none else q.take with _ | q'
  · exact ⟨h, rfl, rfl⟩
  · exact ⟨h.enlist who, rfl, congrArg some h.size⟩

theorem clear (h : Echoes k r r') : Echoes k r.clear r'.clear where
  nextNo := rfl
  members := rfl
  excluded := h.excluded
  size := h.size
  stack := h.stack

theorem exclude (h : Echoes k r r') (i : Nat) : Echoes k (r.exclude i).1 (r'.exclude i).1 where
  nextNo := h.nextNo
  members := h.members
  excluded j := by
    have hmem : ∀ r : Roster, j ∈ (r.exclude i).1.excluded ↔ j = i ∨ j ∈ r.excluded := by
      intro r
      simp only [Roster.exclude]
      split
      · rename_i hi
        exact ⟨.inr, fun hj => hj.elim (fun hj => hj ▸ hi) fun hj => hj⟩
      · exact List.mem_cons
    rw [hmem, hmem, h.excluded]
  size := h.size
  stack := h.stack

end Echoes

end Roster

/-! ### Queues -/

namespace Queue

/-- The same records but for their times, and both sealed or neither. -/
structure Echoes (q q' : Queue) : Prop where
  records : q.records.toList.map Record.timeless = q'.records.toList.map Record.timeless
  capacity : q.capacity = q'.capacity
  dropped : q.dropped = q'.dropped
  closed : q.isClosed = q'.isClosed

variable {q q' : Queue} {e e' : UInt64} {r r' : Record}

@[simp] theorem signal_isClosed (q : Queue) (s : Signal) : (q.signal s).isClosed = q.isClosed := by
  simp [isClosed]

namespace Echoes

theorem size (h : Echoes q q') : q.size = q'.size := by
  have := congrArg List.length h.records
  simpa [Queue.size] using this

/-- Signals do not matter. -/
theorem signal (h : Echoes q q') (s : Signal) : Echoes (q.signal s) (q'.signal s) where
  records := by simpa using h.records
  capacity := by simpa using h.capacity
  dropped := by simpa using h.dropped
  closed := by simpa using h.closed

theorem push (h : Echoes q q') (hr : r.timeless = r'.timeless) : Echoes (q.push r) (q'.push r') where
  records := by simp [Queue.push, h.records, hr]
  capacity := h.capacity
  dropped := h.dropped
  closed := h.closed

theorem drop (h : Echoes q q') : Echoes q.drop q'.drop := by
  have hdropped : Echoes { q with dropped := q.dropped + 1 } { q' with dropped := q'.dropped + 1 } :=
    ⟨h.records, h.capacity, by simp only [h.dropped], h.closed⟩
  exact hdropped.signal .full

theorem signalIfFull (h : Echoes q q') : Echoes q.signalIfFull q'.signalIfFull := by
  unfold Queue.signalIfFull
  rw [h.size, h.capacity]
  split
  · exact h.signal .full
  · exact h

theorem notify (h : Echoes q q') : Echoes q.notify q'.notify := by
  have hempty : q.records.isEmpty = q'.records.isEmpty := by
    have hsize : q.records.size = q'.records.size := h.size
    simp [Array.isEmpty, hsize]
  unfold Queue.notify
  rw [hempty]
  split
  · exact h
  · exact h.signal .nonEmpty

theorem verdict (h : Echoes q q') (hk : q.keepsOut e = false) (hk' : q'.keepsOut e' = false) :
    q.verdict e = q'.verdict e' := by
  simp only [Queue.verdict, hk, hk', h.size, h.capacity]

theorem append (h : Echoes q q') (hk : q.keepsOut e = false) (hk' : q'.keepsOut e' = false)
    (hr : r.timeless = r'.timeless) : Echoes (q.append e r) (q'.append e' r') := by
  unfold Queue.append
  rw [h.verdict hk hk']
  split
  · exact (h.push hr).signalIfFull
  · exact h.drop
  · exact h

theorem appendControl (h : Echoes q q') (hk : q.keepsOut e = false) (hk' : q'.keepsOut e' = false)
    (hr : r.timeless = r'.timeless) : Echoes (q.appendControl e r) (q'.appendControl e' r') := by
  unfold Queue.appendControl
  rw [hk, hk']
  exact h.push hr

theorem close (h : Echoes q q') (hr : r.timeless = r'.timeless) :
    Echoes (q.close e r) (q'.close e' r') := by
  have hsealed : Echoes { q with closedFrom := some e } { q' with closedFrom := some e' } :=
    ⟨h.records, h.capacity, h.dropped, rfl⟩
  unfold Queue.close
  rw [h.closed]
  split
  · exact h
  · exact hsealed.push hr

theorem reopen (h : Echoes q q') (hr : r.timeless = r'.timeless) :
    Echoes (q.reopen r) (q'.reopen r') := by
  have hopen : Echoes { q with closedFrom := none } { q' with closedFrom := none } :=
    ⟨h.records, h.capacity, h.dropped, rfl⟩
  unfold Queue.reopen
  rw [h.closed]
  split
  · exact (hopen.push hr).signal .nonEmpty
  · exact h

theorem drain (h : Echoes q q') : Echoes q.drain q'.drain := ⟨rfl, h.capacity, rfl, h.closed⟩

theorem receive (h : Echoes q q') : Echoes q.receive q'.receive :=
  ⟨h.records, h.capacity, h.dropped, h.closed⟩

theorem reset (h : Echoes q q') (capacity : Nat) : Echoes (q.reset capacity) (q'.reset capacity) :=
  ⟨rfl, rfl, rfl, h.closed⟩

end Echoes

end Queue

/-! ### Tallies -/

namespace Tally
variable (t d : Tally)

theorem add_one_sub (a b : UInt64) : a + 1 - b = a - b + 1 := by
  rw [UInt64.sub_eq_add_neg, UInt64.sub_eq_add_neg, UInt64.add_assoc, UInt64.add_comm 1,
    ← UInt64.add_assoc]

theorem since_countRefused (e : HookError) : (t.countRefused e).since d = (t.since d).countRefused e := by
  rcases e with _ | _ | _ | _ | _ <;> simp only [countRefused, since, add_one_sub]

theorem since_countAppended (v : Except QueueError Unit) :
    (t.countAppended v).since d = (t.since d).countAppended v := by
  rcases v with e | _
  · exact since_countRefused t d (.queue e)
  · simp only [countAppended, countWritten, since, add_one_sub]

theorem since_countRegistered : t.countRegistered.since d = (t.since d).countRegistered := by
  simp only [countRegistered, since, add_one_sub]

theorem since_self : d.since d = .zero := by
  simp only [since, UInt64.sub_self, zero]

theorem since_zero : t.since .zero = t := by
  simp only [since, zero, UInt64.sub_zero]

end Tally

end MethodTrace
