import MethodTrace.Proofs.Flow
import MethodTrace.Proofs.Membership

/-!
# Seats

Who is registered when the roster may have been cleared. `Roster.Seated` is `Roster.Sound` above the
call stacks that earlier members have left behind, and holds along all runs (`Seated.step`). A move
registers one thread, clears the roster, or leaves members and numbers alone (`Machine.Seats`).
-/

namespace MethodTrace

namespace Roster
variable {r r' r'' : Roster} {q q' : Quota} {limit : UInt32} {i j s : Nat} {c : CallStack}

/-- How many call stacks the members of earlier generations have left behind. -/
def base (r : Roster) : Nat := r.callStacks.size - r.size

/-- The numbers of the members. -/
def numbers (r : Roster) : List UInt32 := r.names.map (·.1.val)

/-- A roster under which `limit` threads may be registered in a generation, `q` of them still. -/
structure Seated (r : Roster) (q : Quota) (limit : UInt32) : Prop where
  size_le : r.size ≤ r.callStacks.size
  slots : r.slots = List.range' r.base r.size
  distinct : (r.members.map Prod.fst).Nodup
  room : r.size + q.remaining.toNat = limit.toNat
  nextNo : r.nextNo = .ofNat (r.size + 1)
  number : ∀ s c, r.base ≤ s → r.stack? s = some c → c.no.val.toNat = s - r.base + 1

/-- The same members under the same numbers. -/
structure SameSeats (r r' : Roster) : Prop where
  id : r'.id = r.id
  generation : r'.generation = r.generation
  nextNo : r'.nextNo = r.nextNo
  members : r'.members = r.members
  size : r'.callStacks.size = r.callStacks.size
  number : ∀ s, (r'.stack? s).map CallStack.no = (r.stack? s).map CallStack.no

namespace SameSeats

theorem refl (r : Roster) : r.SameSeats r := ⟨rfl, rfl, rfl, rfl, rfl, fun _ => rfl⟩

theorem trans (h : r.SameSeats r') (h' : r'.SameSeats r'') : r.SameSeats r'' where
  id := h'.id.trans h.id
  generation := h'.generation.trans h.generation
  nextNo := h'.nextNo.trans h.nextNo
  members := h'.members.trans h.members
  size := h'.size.trans h.size
  number s := (h'.number s).trans (h.number s)

theorem symm (h : r.SameSeats r') : r'.SameSeats r where
  id := h.id.symm
  generation := h.generation.symm
  nextNo := h.nextNo.symm
  members := h.members.symm
  size := h.size.symm
  number s := (h.number s).symm

theorem modify {f : CallStack → CallStack} (hf : ∀ c, r.stack? s = some c → (f c).no = c.no) :
    r.SameSeats (r.modify s f) := by
  refine ⟨rfl, rfl, rfl, rfl, by simp [Roster.modify], fun t => ?_⟩
  by_cases ht : t = s
  · subst ht
    rw [stack?_modify_self]
    rcases hc : r.stack? t with _ | c
    · rfl
    · simp [hf c hc]
  · rw [stack?_modify_of_ne ht]

theorem foldl_modify {f : CallStack → CallStack} (hf : ∀ c, (f c).no = c.no) (l : List Slot)
    (r : Roster) : r.SameSeats (l.foldl (fun r s => r.modify s f) r) := by
  induction l generalizing r with
  | nil => exact .refl r
  | cons s l ih => exact (modify fun c _ => hf c).trans (ih _)

theorem exclude (r : Roster) (i : Nat) : r.SameSeats (r.exclude i).1 :=
  ⟨rfl, rfl, rfl, rfl, rfl, fun _ => rfl⟩

theorem slot? (h : r.SameSeats r') (i : Nat) : r'.slot? i = r.slot? i := by
  rw [Roster.slot?, h.members, Roster.slot?]

theorem roster_size (h : r.SameSeats r') : r'.size = r.size := by rw [Roster.size, h.members]; rfl

theorem base (h : r.SameSeats r') : r'.base = r.base := by
  rw [Roster.base, h.size, h.roster_size, Roster.base]

theorem stack? (h : r.SameSeats r') (hc : r'.stack? s = some c) :
    ∃ c', r.stack? s = some c' ∧ c'.no = c.no := by
  have hno := h.number s
  rw [hc, Option.map_some] at hno
  obtain ⟨c', hc', heq⟩ := Option.map_eq_some_iff.mp hno.symm
  exact ⟨c', hc', heq⟩

theorem numbers (h : r.SameSeats r') : r'.numbers = r.numbers := by
  have hno : ∀ s, (r'.stack? s).map (·.no.val) = (r.stack? s).map (·.no.val) := by
    intro s
    have := congrArg (Option.map ThreadNo.val) (h.number s)
    simpa [Function.comp_def] using this
  simp [Roster.numbers, names, slots, h.members, List.map_filterMap, Function.comp_def, hno]

end SameSeats

namespace Seated

theorem new (id : Nat) (limit : UInt32) : (Roster.new id).Seated ⟨limit⟩ limit where
  size_le := Nat.le_refl _
  slots := rfl
  distinct := List.nodup_nil
  room := Nat.zero_add _
  nextNo := rfl
  number s c _ h := by simp [Roster.new, Roster.stack?] at h

theorem congr (h : r.Seated q limit) (hr : r.SameSeats r') : r'.Seated q limit where
  size_le := by rw [hr.roster_size, hr.size]; exact h.size_le
  slots := by rw [Roster.slots, hr.members, hr.base, hr.roster_size]; exact h.slots
  distinct := by rw [hr.members]; exact h.distinct
  room := by rw [hr.roster_size]; exact h.room
  nextNo := by rw [hr.nextNo, hr.roster_size]; exact h.nextNo
  number s c hs hc := by
    obtain ⟨c', hc', hno⟩ := hr.stack? hc
    rw [hr.base] at hs ⊢
    rw [← hno]
    exact h.number s c' hs hc'

theorem clear (r : Roster) (limit : UInt32) : r.clear.Seated ⟨limit⟩ limit where
  size_le := Nat.zero_le _
  slots := rfl
  distinct := List.nodup_nil
  room := Nat.zero_add _
  nextNo := rfl
  number _ _ hs hc := absurd (lt_size_of_stack? hc) (Nat.not_lt_of_le hs)

theorem mem_slots (h : r.Seated q limit) : s ∈ r.slots ↔ r.base ≤ s ∧ s < r.callStacks.size := by
  have := h.size_le
  have hbase : r.base = r.callStacks.size - r.size := rfl
  rw [h.slots, List.mem_range'_1]
  omega

theorem nodup_slots (h : r.Seated q limit) : r.slots.Nodup := by
  rw [h.slots]
  exact List.nodup_range'

theorem slot_mem (hi : r.slot? i = some s) : s ∈ r.slots :=
  List.mem_map.mpr ⟨_, mem_of_slot? hi, rfl⟩

theorem stack?_of_mem (h : r.Seated q limit) (hs : s ∈ r.slots) :
    ∃ c, r.stack? s = some c ∧ c.no.val.toNat = s - r.base + 1 := by
  obtain ⟨hbase, hlt⟩ := h.mem_slots.mp hs
  rcases hc : r.stack? s with _ | c
  · exact absurd (stack?_eq_none_iff.mp hc) (Nat.not_le_of_lt hlt)
  · exact ⟨c, rfl, h.number s c hbase hc⟩

theorem slot?_of_mem (h : r.Seated q limit) (hi : (i, s) ∈ r.members) : r.slot? i = some s :=
  Roster.slot?_of_mem h.distinct hi

/-- Members have places in the order of registration, and the numbers of their places. -/
theorem slot?_of_getElem? (h : r.Seated q limit) {k : Nat}
    (hk : (r.members.map Prod.fst)[k]? = some i) : r.slot? i = some (r.base + k) := by
  rw [List.getElem?_map, Option.map_eq_some_iff] at hk
  obtain ⟨⟨i', s⟩, hk, rfl⟩ := hk
  have hlt : k < r.size := (List.getElem?_eq_some_iff.mp hk).1
  have hs : r.slots[k]? = some s := by rw [Roster.slots, List.getElem?_map, hk]; rfl
  rw [h.slots, List.getElem?_range' hlt] at hs
  cases hs
  rw [h.slot?_of_mem (List.mem_of_getElem? hk), Nat.one_mul]

theorem stackOf_of_getElem? (h : r.Seated q limit) {k : Nat}
    (hk : (r.members.map Prod.fst)[k]? = some i) :
    ∃ c, r.stackOf i = some c ∧ c.no.val.toNat = k + 1 := by
  have hslot := h.slot?_of_getElem? hk
  obtain ⟨c, hc, hno⟩ := h.stack?_of_mem (slot_mem hslot)
  exact ⟨c, (stackOf_of_slot? hslot).trans hc, by omega⟩

theorem numbers_toNat (h : r.Seated q limit) :
    r.numbers.map UInt32.toNat = List.range' 1 r.size := by
  have hno : ∀ s ∈ r.slots,
      (r.stack? s).map (fun c => c.no.val.toNat) = some (s - r.base + 1) := by
    intro s hs
    obtain ⟨c, hc, hno⟩ := h.stack?_of_mem hs
    rw [hc, Option.map_some, hno]
  have hmap : r.numbers.map UInt32.toNat =
      r.slots.filterMap fun s => (r.stack? s).map fun c => c.no.val.toNat := by
    simp [numbers, names, List.map_filterMap, Function.comp_def]
  rw [hmap, List.filterMap_congr hno, List.filterMap_eq_map', h.slots, List.range'_eq_map_range,
    List.range'_eq_map_range, List.map_map]
  refine List.map_congr_left fun k _ => ?_
  simp only [Function.comp_apply]
  omega

/-- No two members share a slot. -/
theorem slot?_inj (h : r.Seated q limit) (hi : r.slot? i = some s) (hj : r.slot? j = some s) :
    i = j := by
  have := List.inj_on_of_nodup_map h.nodup_slots (mem_of_slot? hi) (mem_of_slot? hj) rfl
  cases this
  rfl

theorem size_lt (h : r.Seated q limit) (hq : q.take = some q') : r.size < limit.toNat := by
  have hpos := Quota.toNat_of_take hq
  have hroom := h.room
  omega

/-- The counter of numbers may run over, but not before the last of them has been given. -/
theorem toNat_nextNo (h : r.Seated q limit) (hq : q.take = some q') :
    r.nextNo.toNat = r.size + 1 := by
  have hlt := h.size_lt hq
  have hlimit : limit.toNat < UInt32.size := limit.toNat_lt
  rw [h.nextNo]
  exact UInt32.toNat_ofNat_of_lt' (by omega)

section enlist
variable {who : OsThread}

theorem size_enlist (r : Roster) (who : OsThread) : (r.enlist who).size = r.size + 1 := by
  simp [Roster.size, Roster.enlist]

theorem base_enlist (r : Roster) (who : OsThread) : (r.enlist who).base = r.base := by
  rw [Roster.base, size_enlist, Roster.base]
  simp only [Roster.enlist, Array.size_push]
  omega

theorem numbers_enlist (h : r.Seated q limit) (who : OsThread) :
    (r.enlist who).numbers = r.numbers ++ [r.nextNo] := by
  have hold : ∀ s ∈ r.slots, (r.enlist who).stack? s = r.stack? s :=
    fun s hs => stack?_enlist_of_lt (h.mem_slots.mp hs).2
  have hslots : (r.enlist who).slots = r.slots ++ [r.callStacks.size] := by
    simp [Roster.slots, Roster.enlist]
  simp only [numbers, names, hslots, List.filterMap_append, List.map_append]
  congr 1
  · exact congrArg _ (List.filterMap_congr fun s hs => by rw [hold s hs])
  · simp [stack?_enlist_size, CallStack.new]

theorem enlist (h : r.Seated q limit) (hi : r.slot? who.id = none) (hq : q.take = some q') :
    (r.enlist who).Seated q' limit where
  size_le := by
    rw [size_enlist]
    simpa [Roster.enlist] using h.size_le
  slots := by
    have hslots := h.slots
    have hsize := h.size_le
    rw [size_enlist, base_enlist, List.range'_concat, ← hslots]
    have hlast : r.callStacks.size = r.base + 1 * r.size := by
      have hbase : r.base = r.callStacks.size - r.size := rfl
      omega
    simp only [Roster.slots, Roster.enlist, List.map_append, List.map_cons, List.map_nil, ← hlast]
  distinct := nodup_enlist h.distinct hi
  room := by
    have hroom := h.room
    have hpos := Quota.toNat_of_take hq
    rw [size_enlist]
    omega
  nextNo := by
    rw [size_enlist, UInt32.ofNat_add (r.size + 1) 1, ← h.nextNo]
    rfl
  number s c hs hc := by
    have hsize := h.size_le
    have hbase : r.base = r.callStacks.size - r.size := rfl
    have hno := h.toNat_nextNo hq
    rw [base_enlist] at hs ⊢
    exact number_enlist h.number (by omega) hs hc

end enlist

end Seated

end Roster

/-! ### What a move does to the roster -/

theorem Tracer.Touches.sameSeats {slot : Slot} {epoch : UInt64} {t t' : Tracer}
    (h : Touches slot epoch t t') : t.roster.SameSeats t'.roster := by
  refine ⟨by rw [h.roster], by rw [h.roster], by rw [h.roster], by rw [h.roster], h.size,
    fun s => ?_⟩
  by_cases hs : s = slot
  · subst hs
    rcases hc : t.roster.stack? s with _ | c
    · have : t'.roster.stack? s = none := by
        rw [Roster.stack?_eq_none_iff, h.size]
        exact Roster.stack?_eq_none_iff.mp hc
      rw [this]
    · obtain ⟨c', hc', hno, -⟩ := h.own c hc
      simp [hc', hno]
  · rw [h.others s hs]

/-- What a step of a call does to the roster. -/
inductive Call.Seats (c : Call) (who : OsThread) (l : Local) (stage : Stage) (l' : Local) : Prop where
  | same (h : l.tracer.roster.SameSeats l'.tracer.roster) (hq : l'.tracer.quota = l.tracer.quota)
  | enlist {epoch : UInt64} {q : Quota} (hstage : stage = .running epoch)
    (hc : c.hook.enrolls = true) (hslot : l.tracer.roster.slot? who.id = none)
    (hq : l.tracer.quota.take = some q) (hr : l'.tracer.roster = l.tracer.roster.enlist who)
    (hq' : l'.tracer.quota = q) (he : who.id ∉ l.tracer.roster.excluded)

theorem Call.Goes.seats {c : Call} {who : OsThread} {l l' : Local} {stage stage' : Stage}
    (h : c.Goes who l stage l' stage') : c.Seats who l stage l' := by
  have hregister : ∀ {t : Tracer} {memory : Memory} {epoch : UInt64} {t' : Tracer}
      (memory' : Memory), c.hook.enrolls = true →
      t'.roster = (t.roster.register who t.quota memory).roster →
      t'.quota = (t.roster.register who t.quota memory).quota →
      ∀ memory₀, c.Seats who ⟨t, memory₀⟩ (.running epoch) ⟨t', memory'⟩ := by
    intro t memory epoch t' memory' hc hr hq memory₀
    rcases hslot : t.roster.slot? who.id with _ | s
    · rcases Roster.register_of_slot?_eq_none hslot t.quota memory with
        ⟨q, htake, he, heq⟩ | ⟨-, heq⟩
      · rw [heq] at hr hq
        exact .enlist rfl hc hslot htake hr hq he
      · rw [heq] at hr hq
        exact .same (by rw [hr]; exact .refl _) hq
    · have hfound : t.roster.members.lookup who.id = some s := hslot
      rw [Roster.register, hfound] at hr hq
      exact .same (by rw [hr]; exact .refl _) hq
  cases h with
  | register _ hc _ => exact hregister _ hc rfl rfl _
  | refuse _ hc _ => exact hregister _ hc rfl rfl _
  | @guard t memory epoch slot fresh s hs _ =>
    refine .same (Roster.SameSeats.modify fun c hc => ?_) rfl
    rw [hs] at hc
    cases hc
    rfl
  | act => exact .same act_touches.sameSeats act_touches.quota
  | @tell t memory epoch slot o =>
    exact .same (enter_touches epoch o).sameSeats (enter_touches epoch o).quota
  | close => exact .same (Roster.SameSeats.modify fun _ _ => rfl) rfl
  | _ => exact .same (.refl _) rfl

namespace Machine
variable {m m' : Machine} {x : Move} {limit : UInt32}

inductive Seats (m : Machine) : Move → Machine → Prop where
  | same {x : Move} {m' : Machine} (hx : m.resets x = false)
    (h : m.tracer.roster.SameSeats m'.tracer.roster) (hq : m'.tracer.quota = m.tracer.quota) :
    Seats m x m'
  | enlist {who : OsThread} {a : Activity} {rest : List Activity} {epoch : UInt64} {q : Quota}
    {m' : Machine} (hact : m.active who.id = a :: rest) (hstage : a.stage = .running epoch)
    (hc : a.call.hook.enrolls = true) (hslot : m.tracer.roster.slot? who.id = none)
    (hq : m.tracer.quota.take = some q) (hr : m'.tracer.roster = m.tracer.roster.enlist who)
    (hq' : m'.tracer.quota = q) (he : who.id ∉ m.tracer.roster.excluded) : Seats m (.advance who) m'
  | clear {l : Settings.Limits} {m' : Machine} (hs : m.tracer.suspension.suspended = true)
    (hr : m'.tracer.roster = m.tracer.roster.clear) (hq : m'.tracer.quota = ⟨l.threadSlots⟩) :
    Seats m (.reset l) m'

theorem seats_step (m : Machine) (x : Move) : m.Seats x (m.step x) := by
  cases x with
  | call who c counted =>
    by_cases hr : m.ready who.id = true
    · obtain ⟨l, stage, hgoes, heq⟩ := call_goes c counted hr
      have hl : l.tracer = m.tracer := by cases hgoes <;> rfl
      rw [heq]
      exact .same rfl (by simpa [put, hl] using .refl _) (by simp [put, hl])
    · rw [step, Machine.call, if_neg hr]
      exact .same rfl (.refl _) rfl
  | advance who =>
    rcases hact : m.active who.id with _ | ⟨a, rest⟩
    · have heq : m.step (.advance who) = m := by simp only [step, Machine.advance, hact]
      rw [heq]
      exact .same rfl (.refl _) rfl
    · obtain ⟨l, stage, hgoes, heq⟩ := advance_goes hact
      rw [heq]
      cases hgoes.seats with
      | same h hq => exact .same rfl (by simpa [put] using h) (by simpa [put] using hq)
      | enlist hstage hc hslot hq hr hq' he =>
        exact .enlist hact hstage hc hslot hq (by simpa [put] using hr) (by simpa [put] using hq') he
  | suspend =>
    rcases m.suspend_cases with heq | ⟨-, heq⟩ <;> rw [step, heq]
    · exact .same rfl (.refl _) rfl
    · exact .same rfl (Roster.SameSeats.foldl_modify (f := CallStack.bump) (fun _ => rfl) _ _) rfl
  | resume =>
    rcases m.resume_cases with heq | ⟨-, heq⟩ <;> rw [step, heq]
    · exact .same rfl (.refl _) rfl
    · refine .same rfl (Roster.SameSeats.foldl_modify (f := CallStack.release) (fun c => ?_) _ _) rfl
      unfold CallStack.release
      split <;> rfl
  | reset l =>
    rcases hr : m.tracer.reset l with e | t
    · rw [step, Machine.reset, hr]
      exact .same (Tracer.reset_eq_error hr) (.refl _) rfl
    · obtain ⟨hs, rfl⟩ := Tracer.reset_eq_ok hr
      rw [step, Machine.reset, hr]
      exact .clear hs rfl rfl
  | elsewhere i r => rw [step]; split <;> exact .same rfl (.refl _) rfl
  | exclude i => exact .same rfl (.exclude _ i) rfl
  | _ => exact .same rfl (.refl _) rfl

/-- No stack is ever given away. -/
theorem size_le_step (m : Machine) (x : Move) :
    m.tracer.roster.callStacks.size ≤ (m.step x).tracer.roster.callStacks.size := by
  have hseats := m.seats_step x
  generalize m.step x = m' at hseats
  cases hseats with
  | same _ hr _ => exact Nat.le_of_eq hr.size.symm
  | enlist _ _ _ _ _ hr _ _ => rw [hr]; simp [Roster.enlist]
  | clear _ hr _ => rw [hr]; exact Nat.le_refl _

/-- How many threads may be registered after a move if it were `limit` before. -/
def slotsAfter (m : Machine) (limit : UInt32) : Move → UInt32
  | .reset l => if m.tracer.suspension.suspended then l.threadSlots else limit
  | _ => limit

theorem slotsAfter_of_resets (hx : m.resets x = false) : m.slotsAfter limit x = limit := by
  cases x with
  | reset l => rw [slotsAfter, show m.tracer.suspension.suspended = false from hx]; rfl
  | _ => rfl

theorem seated_step (h : m.tracer.roster.Seated m.tracer.quota limit) (x : Move) :
    (m.step x).tracer.roster.Seated (m.step x).tracer.quota (m.slotsAfter limit x) := by
  have hseats := m.seats_step x
  generalize m.step x = m' at hseats
  cases hseats with
  | same hx hr hq =>
    rw [slotsAfter_of_resets hx, hq]
    exact h.congr hr
  | enlist _ _ _ hslot hq hr hq' =>
    rw [hr, hq']
    exact h.enlist hslot hq
  | @clear l m' hs hr hq =>
    rw [hr, hq, slotsAfter, hs]
    exact .clear _ _

end Machine

end MethodTrace
