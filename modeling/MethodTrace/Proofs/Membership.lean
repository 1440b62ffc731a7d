import Mathlib.Data.List.Nodup
import MethodTrace.Proofs.Footprint
import MethodTrace.Tracer.Basic

/-!
# Who is registered

`Roster.Sound`: the slots of the members are the places of the call stacks, in the order of
registration, and every stack carries the number that its place gives it. So no two threads share a
stack or a number. `Recalls`: what a thread remembers is what the roster would say, or a denial.
-/

namespace MethodTrace

theorem Quota.toNat_of_take {q q' : Quota} (h : q.take = some q') :
    q.remaining.toNat = q'.remaining.toNat + 1 := by
  unfold Quota.take at h
  split at h
  · cases h
  · rename_i h0
    cases h
    have hpos : 1 ≤ q.remaining.toNat := Nat.pos_of_ne_zero fun h => h0 (UInt32.toNat_inj.mp h)
    have hle : 1 ≤ q.remaining := UInt32.le_iff_toNat_le.mpr hpos
    have h1 : (1 : UInt32).toNat = 1 := rfl
    simp only [UInt32.toNat_sub_of_le _ _ hle]
    omega

namespace Roster

/-- The slot of a thread, if it is registered. -/
def slot? (r : Roster) (i : Nat) : Option Slot := r.members.lookup i

def stackOf (r : Roster) (i : Nat) : Option CallStack := (r.slot? i).bind r.stack?

/-- A roster under which `limit` threads may be registered, `q` of them still. -/
structure Sound (r : Roster) (q : Quota) (limit : UInt32) : Prop where
  slots : r.slots = List.range r.callStacks.size
  distinct : (r.members.map Prod.fst).Nodup
  room : r.callStacks.size + q.remaining.toNat = limit.toNat
  nextNo : r.nextNo = .ofNat (r.callStacks.size + 1)
  number : ∀ s c, r.stack? s = some c → c.no.val.toNat = s + 1

variable {r r' : Roster} {q q' : Quota} {limit : UInt32} {i j : Nat} {s : Slot} {c : CallStack}

theorem mem_of_slot? (h : r.slot? i = some s) : (i, s) ∈ r.members := by
  obtain ⟨a, b, heq, -⟩ := List.lookup_eq_some_iff.mp h
  rw [heq]
  simp

theorem slot?_eq_none_iff : r.slot? i = none ↔ i ∉ r.members.map Prod.fst := by
  rw [slot?, List.lookup_eq_none_iff]
  constructor
  · rintro h hi
    obtain ⟨p, hp, rfl⟩ := List.mem_map.mp hi
    simpa using h p hp
  · intro h p hp
    have hne : i ≠ p.1 := fun heq => h (heq ▸ List.mem_map_of_mem hp)
    simpa using hne

theorem slot?_of_mem (h : (r.members.map Prod.fst).Nodup) (hi : (i, s) ∈ r.members) :
    r.slot? i = some s := by
  rcases hs : r.slot? i with _ | s'
  · exact absurd (List.mem_map_of_mem hi) (slot?_eq_none_iff.mp hs)
  · have := List.inj_on_of_nodup_map h (mem_of_slot? hs) hi rfl
    cases this
    rfl

theorem stackOf_of_slot? (h : r.slot? i = some s) : r.stackOf i = r.stack? s := by
  rw [stackOf, h, Option.bind_some]

theorem stackOf_of_slot?_eq_none (h : r.slot? i = none) : r.stackOf i = none := by
  rw [stackOf, h, Option.bind_none]

namespace Sound

theorem new (id : Nat) (limit : UInt32) : (Roster.new id).Sound ⟨limit⟩ limit where
  slots := rfl
  distinct := List.nodup_nil
  room := Nat.zero_add _
  nextNo := rfl
  number s c h := by simp [Roster.new, stack?] at h

theorem size_eq (h : r.Sound q limit) : r.size = r.callStacks.size := by
  have := congrArg List.length h.slots
  simpa [Roster.slots, Roster.size] using this

theorem slot_lt (h : r.Sound q limit) (hi : r.slot? i = some s) : s < r.callStacks.size := by
  have : s ∈ r.slots := List.mem_map.mpr ⟨_, mem_of_slot? hi, rfl⟩
  rw [h.slots] at this
  exact List.mem_range.mp this

theorem stack?_of_slot? (h : r.Sound q limit) (hi : r.slot? i = some s) :
    ∃ c, r.stack? s = some c := by
  rcases hc : r.stack? s with _ | c
  · exact absurd (stack?_eq_none_iff.mp hc) (Nat.not_le_of_lt (h.slot_lt hi))
  · exact ⟨c, rfl⟩

theorem slot?_of_stackOf (hi : r.stackOf i = some c) : ∃ s, r.slot? i = some s ∧ r.stack? s = some c :=
  Option.bind_eq_some_iff.mp hi

/-- No two threads share a slot. -/
theorem slot?_inj (h : r.Sound q limit) (hi : r.slot? i = some s) (hj : r.slot? j = some s) :
    i = j := by
  have hnodup : r.slots.Nodup := by rw [h.slots]; exact List.nodup_range
  have := List.inj_on_of_nodup_map hnodup (mem_of_slot? hi) (mem_of_slot? hj) rfl
  cases this
  rfl

/-- No two slots share a number. -/
theorem slot_eq_of_no (h : r.Sound q limit) {s s' : Slot} {c c' : CallStack}
    (hc : r.stack? s = some c) (hc' : r.stack? s' = some c') (hno : c.no = c'.no) : s = s' := by
  have h1 := h.number s c hc
  rw [hno, h.number s' c' hc'] at h1
  exact (Nat.succ.inj h1).symm

/-- Stacks may change, but not their numbers. -/
theorem congr (h : r.Sound q limit) (hr : r' = { r with callStacks := r'.callStacks })
    (hsize : r'.callStacks.size = r.callStacks.size)
    (hno : ∀ s c', r'.stack? s = some c' → ∃ c, r.stack? s = some c ∧ c'.no = c.no) :
    r'.Sound q limit where
  slots := by rw [hr, hsize]; exact h.slots
  distinct := by rw [hr]; exact h.distinct
  room := by rw [hsize]; exact h.room
  nextNo := by rw [hr, hsize]; exact h.nextNo
  number s c' hc' := by
    obtain ⟨c, hc, heq⟩ := hno s c' hc'
    rw [heq]
    exact h.number s c hc

end Sound

/-! ### Registration -/

/-- The roster with one more thread. -/
def enlist (r : Roster) (who : OsThread) : Roster :=
  { r with
    nextNo := r.nextNo + 1
    members := r.members ++ [(who.id, r.callStacks.size)]
    callStacks := r.callStacks.push (.new ⟨r.nextNo⟩ who.name) }

theorem register_of_slot?_eq_none {who : OsThread} (h : r.slot? who.id = none) (q : Quota)
    (memory : Memory) :
    (∃ q', q.take = some q' ∧ who.id ∉ r.excluded ∧ r.register who q memory =
      ⟨r.enlist who, q', r.memoryOf (.registered r.callStacks.size), some r.callStacks.size⟩) ∨
    ((q.remaining = 0 ∨ who.id ∈ r.excluded) ∧
      r.register who q memory = ⟨r, q, r.memoryOf .denied, none⟩) := by
  have h' : r.members.lookup who.id = none := h
  unfold register
  rw [h']
  by_cases he : who.id ∈ r.excluded
  · exact .inr ⟨.inr he, by simp only [he, ↓reduceIte]⟩
  · rcases hq : q.take with _ | q'
    · refine .inr ⟨.inl ?_, by simp only [he, ↓reduceIte]⟩
      unfold Quota.take at hq
      split at hq
      · assumption
      · cases hq
    · exact .inl ⟨q', rfl, he, by simp only [he, ↓reduceIte, enlist]⟩

/-- A thread that is given a slot is enlisted. -/
theorem register_of_slot_eq_some {who : OsThread} (h : r.slot? who.id = none) {q : Quota}
    {memory : Memory} (hr : (r.register who q memory).slot = some s) :
    s = r.callStacks.size ∧ who.id ∉ r.excluded ∧ ∃ q', q.take = some q' ∧
      r.register who q memory =
        ⟨r.enlist who, q', r.memoryOf (.registered r.callStacks.size), some r.callStacks.size⟩ := by
  rcases register_of_slot?_eq_none h q memory with ⟨q', hq, he, heq⟩ | ⟨-, heq⟩ <;> rw [heq] at hr
  · exact ⟨(Option.some.inj hr).symm, he, q', hq, heq⟩
  · cases hr

/-- A thread that is given no slot is turned away. -/
theorem register_of_slot_eq_none {who : OsThread} (h : r.slot? who.id = none) {q : Quota}
    {memory : Memory} (hr : (r.register who q memory).slot = none) :
    (q.remaining = 0 ∨ who.id ∈ r.excluded) ∧
      r.register who q memory = ⟨r, q, r.memoryOf .denied, none⟩ := by
  rcases register_of_slot?_eq_none h q memory with ⟨q', -, -, heq⟩ | hrefused
  · rw [heq] at hr
    cases hr
  · exact hrefused

theorem register_slot_of_slot? {who : OsThread} (h : r.slot? who.id = some s) (q : Quota)
    (memory : Memory) : (r.register who q memory).slot = some s := by
  have h' : r.members.lookup who.id = some s := h
  rw [register, h']

section enlist
variable {who : OsThread}

theorem slot?_enlist_self (who : OsThread) (h : r.slot? who.id = none) :
    (r.enlist who).slot? who.id = some r.callStacks.size := by
  simp only [slot?, enlist, List.lookup_append] at h ⊢
  simp [h]

theorem slot?_enlist_of_ne (h : i ≠ who.id) : (r.enlist who).slot? i = r.slot? i := by
  simp only [slot?, enlist, List.lookup_append]
  simp [h]

theorem stack?_enlist_of_lt (h : s < r.callStacks.size) : (r.enlist who).stack? s = r.stack? s := by
  simp only [stack?, enlist]
  rw [Array.getElem?_push_lt h, Array.getElem?_eq_getElem h]

theorem stack?_enlist_size (r : Roster) (who : OsThread) :
    (r.enlist who).stack? r.callStacks.size = some (.new ⟨r.nextNo⟩ who.name) := by
  simp [stack?, enlist]

theorem Sound.stackOf_enlist_of_ne (h : r.Sound q limit) (hi : i ≠ who.id) :
    (r.enlist who).stackOf i = r.stackOf i := by
  rw [stackOf, slot?_enlist_of_ne hi, stackOf]
  rcases hs : r.slot? i with _ | s
  · rfl
  · simp only [Option.bind_some]
    exact stack?_enlist_of_lt (h.slot_lt hs)

theorem stackOf_enlist_self (h : r.slot? who.id = none) :
    (r.enlist who).stackOf who.id = some (.new ⟨r.nextNo⟩ who.name) := by
  rw [stackOf_of_slot? (slot?_enlist_self who h), stack?_enlist_size]

theorem nodup_enlist (h : (r.members.map Prod.fst).Nodup) (hi : r.slot? who.id = none) :
    ((r.enlist who).members.map Prod.fst).Nodup := by
  simpa [enlist] using h.concat (slot?_eq_none_iff.mp hi)

theorem Sound.toNat_nextNo (h : r.Sound q limit) (hq : q.take = some q') :
    r.nextNo.toNat = r.callStacks.size + 1 := by
  have hpos := Quota.toNat_of_take hq
  have hroom := h.room
  have hlimit : limit.toNat < UInt32.size := limit.toNat_lt
  rw [h.nextNo]
  exact UInt32.toNat_ofNat_of_lt' (by omega)

/-- The next number is that of the next place, if stacks are numbered from place `b` on. -/
theorem number_enlist {b : Nat} (h : ∀ s c, b ≤ s → r.stack? s = some c → c.no.val.toNat = s - b + 1)
    (hno : r.nextNo.toNat = r.callStacks.size - b + 1) (hs : b ≤ s)
    (hc : (r.enlist who).stack? s = some c) : c.no.val.toNat = s - b + 1 := by
  by_cases hlt : s < r.callStacks.size
  · rw [stack?_enlist_of_lt hlt] at hc
    exact h s c hs hc
  · have hle := lt_size_of_stack? hc
    simp only [enlist, Array.size_push] at hle
    obtain rfl : s = r.callStacks.size :=
      Nat.le_antisymm (Nat.le_of_lt_succ hle) (Nat.le_of_not_lt hlt)
    rw [stack?_enlist_size] at hc
    cases hc
    exact hno

theorem Sound.enlist (h : r.Sound q limit) (hi : r.slot? who.id = none)
    (hq : q.take = some q') : (r.enlist who).Sound q' limit where
  slots := by
    have := h.slots
    simp only [Roster.slots] at this
    simp [Roster.slots, Roster.enlist, this, List.range_succ]
  distinct := nodup_enlist h.distinct hi
  room := by
    have hroom := h.room
    have hpos := Quota.toNat_of_take hq
    simp only [Roster.enlist, Array.size_push]
    omega
  nextNo := by
    simp only [Roster.enlist, h.nextNo, Array.size_push]
    rw [UInt32.ofNat_add (r.callStacks.size + 1) 1]
    rfl
  number _ _ := number_enlist (fun s c _ => h.number s c) (h.toNat_nextNo hq) (Nat.zero_le _)

end enlist

/-! ### Memory -/

theorem lookup_eq_registered_iff : r.lookup i = .registered s ↔ r.slot? i = some s := by
  unfold lookup slot?
  rcases r.members.lookup i with _ | s'
  · simp only [reduceCtorEq, iff_false]
    split <;> simp
  · simp

theorem slot?_of_lookup_ne (h : ∀ s, r.lookup i ≠ .registered s) : r.slot? i = none := by
  rcases hs : r.slot? i with _ | s
  · rfl
  · exact absurd (lookup_eq_registered_iff.mpr hs) (h s)

theorem lookup_ne_denied (h : i ∉ r.excluded) : r.lookup i ≠ .denied := by
  unfold lookup
  split
  · simp
  · rw [if_neg h]
    simp

/-- What thread `i` remembers of this roster is right, or that it is denied. -/
def Recalls (r : Roster) (i : Nat) (memory : Memory) : Prop :=
  ∀ st, r.recollect memory = some st → st = r.lookup i ∨ st = .denied

@[simp] theorem recollect_memoryOf (st : Standing) : r.recollect (r.memoryOf st) = some st := by
  simp [recollect, memoryOf]

theorem recollect_eq_some {memory : Memory} {st : Standing} (h : r.recollect memory = some st) :
    ∃ c, memory = some c ∧ c.roster = r.id ∧ c.generation = r.generation ∧ c.standing = st := by
  unfold recollect at h
  split at h
  · rename_i c
    split at h
    · rename_i hvalid
      exact ⟨c, rfl, hvalid.1, hvalid.2, Option.some.inj h⟩
    · cases h
  · cases h

theorem Recalls.consult {memory memory' : Memory} {st : Standing} (h : r.Recalls i memory)
    (hc : r.consult i memory = (st, memory')) :
    (st = r.lookup i ∨ st = .denied) ∧ r.Recalls i memory' := by
  unfold Roster.consult at hc
  split at hc
  · rename_i m hm
    cases hc
    exact ⟨h _ hm, h⟩
  · cases hc
    refine ⟨.inl rfl, fun st hst => ?_⟩
    rw [recollect_memoryOf] at hst
    cases hst
    exact .inl rfl

theorem lookup_enlist_of_ne {who : OsThread} (h : i ≠ who.id) :
    (r.enlist who).lookup i = r.lookup i := by
  have := slot?_enlist_of_ne (r := r) h
  simp only [slot?] at this
  simp only [lookup, this]
  rfl

theorem lookup_exclude_of_ne (h : i ≠ j) : (r.exclude j).1.lookup i = r.lookup i := by
  have : i ∈ (r.exclude j).1.excluded ↔ i ∈ r.excluded := by
    unfold exclude
    dsimp only
    split <;> simp [h]
  simp only [lookup, this]
  rfl

theorem Recalls.slot?_of_registered {memory memory' : Memory} (h : r.Recalls i memory)
    (hc : r.consult i memory = (.registered s, memory')) : r.slot? i = some s := by
  rcases (h.consult hc).1 with h | h
  · exact lookup_eq_registered_iff.mp h.symm
  · cases h

theorem Recalls.slot?_of_unregistered {memory memory' : Memory} (h : r.Recalls i memory)
    (hc : r.consult i memory = (.unregistered, memory')) : r.slot? i = none := by
  refine slot?_of_lookup_ne fun s hs => ?_
  rcases (h.consult hc).1 with h | h
  · rw [hs] at h; cases h
  · cases h

/-- Memories are not disturbed by what concerns other threads. -/
theorem Recalls.congr {memory : Memory} (h : r.Recalls i memory) (hid : r'.id = r.id)
    (hg : r'.generation = r.generation) (hl : r'.lookup i = r.lookup i) : r'.Recalls i memory := by
  intro st hst
  rw [hl]
  refine h st ?_
  unfold recollect at hst ⊢
  rwa [hid, hg] at hst

theorem recalls_memoryOf {st : Standing} (h : st = r.lookup i ∨ st = .denied) :
    r.Recalls i (r.memoryOf st) := by
  intro st' hst
  rw [recollect_memoryOf] at hst
  cases hst
  exact h

end Roster

/-! ### Suspension -/

namespace Suspension

theorem foldl_modify_eq (f : CallStack → CallStack) (l : List Slot) (r : Roster) :
    l.foldl (fun r s => r.modify s f) r =
      { r with callStacks := (l.foldl (fun r s => r.modify s f) r).callStacks } := by
  induction l generalizing r with
  | nil => rfl
  | cons x l ih =>
    simp only [List.foldl_cons]
    rw [ih]
    rfl

theorem bumpAll_eq (r : Roster) (l : List Slot) :
    bumpAll r l = { r with callStacks := (bumpAll r l).callStacks } :=
  foldl_modify_eq ..

theorem releaseAll_eq (r : Roster) (l : List Slot) :
    releaseAll r l = { r with callStacks := (releaseAll r l).callStacks } :=
  foldl_modify_eq ..

/-- The stacks of the slots in a list change, one by one. -/
theorem foldl_modify {f : CallStack → CallStack} {l : List Slot} (hl : l.Nodup) (r : Roster) :
    (l.foldl (fun r s => r.modify s f) r).callStacks.size = r.callStacks.size ∧
      ∀ s, (l.foldl (fun r s => r.modify s f) r).stack? s =
        if s ∈ l then (r.stack? s).map f else r.stack? s := by
  induction l generalizing r with
  | nil => simp
  | cons x l ih =>
    obtain ⟨hx, hl⟩ := List.nodup_cons.mp hl
    obtain ⟨hsize, hstack⟩ := ih hl (r.modify x f)
    simp only [List.foldl_cons]
    refine ⟨by rw [hsize]; simp [Roster.modify], fun s => ?_⟩
    rw [hstack]
    by_cases hs : s = x
    · subst hs
      rw [if_neg hx, if_pos List.mem_cons_self, Roster.stack?_modify_self]
    · rw [Roster.stack?_modify_of_ne hs]
      simp [hs]

theorem stack?_of_foldl_modify {f : CallStack → CallStack} {l : List Slot} {r : Roster} {s : Slot}
    {c' : CallStack} (hl : l.Nodup)
    (hc : (l.foldl (fun r s => r.modify s f) r).stack? s = some c') :
    ∃ c, r.stack? s = some c ∧ c' = if s ∈ l then f c else c := by
  rw [(foldl_modify hl r).2] at hc
  split at hc
  · rename_i hs
    obtain ⟨c, hstack, rfl⟩ := Option.map_eq_some_iff.mp hc
    exact ⟨c, hstack, by rw [if_pos hs]⟩
  · rename_i hs
    exact ⟨c', hc, by rw [if_neg hs]⟩

end Suspension

/-- Who looks for a stack remembers what the roster says. -/
theorem Tracer.look_memory (t : Tracer) (thread : Nat) (memory : Memory) :
    (t.look thread memory).2 = (t.roster.consult thread memory).2 := by
  unfold look
  rcases t.roster.consult thread memory with ⟨slot | _ | _, memory'⟩ <;> rfl

end MethodTrace
