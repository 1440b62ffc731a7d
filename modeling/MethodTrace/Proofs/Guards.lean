import MethodTrace.Proofs.Barrier
import MethodTrace.Proofs.Fleet
import MethodTrace.Proofs.Holding

/-!
# The guards of a tracer's threads

However often a tracer has been reset, a call has to do with no stack but those that were made for its
thread: it finds a slot in the roster, or what its thread remembers was once found there
(`Call.Goes.leads`). So every guard is what the suspension in force and the calls of one thread make of
it (`Machine.Accounted`), also on a stack that a reset has left behind.
-/

namespace MethodTrace

namespace Roster
variable {r r' : Roster} {i : Nat} {memory memory' : Memory} {s : Slot}

/-- Whether a slot may be the answer to a lookup, be it because it is remembered, of whatever
generation the memory is. -/
def Places (r : Roster) (i : Nat) (memory : Memory) (s : Slot) : Prop :=
  r.slot? i = some s ∨ ∃ c, memory = some c ∧ c.roster = r.id ∧ c.standing = .registered s

theorem Places.congr (hid : r'.id = r.id) (hslot : r'.slot? i = r.slot? i)
    (h : r'.Places i memory s) : r.Places i memory s := by
  rwa [Places, hid, hslot] at h

theorem places_memoryOf {st : Standing} (h : r.Places i (r.memoryOf st) s) :
    r.slot? i = some s ∨ st = .registered s := by
  rcases h with h | ⟨c, hc, -, hst⟩
  · exact .inl h
  · cases hc
    exact .inr hst

theorem places_consult {st : Standing} (hc : r.consult i memory = (st, memory')) :
    (∀ s, st = .registered s → r.Places i memory s) ∧
      ∀ s, r.Places i memory' s → r.Places i memory s := by
  unfold consult at hc
  rcases hm : r.recollect memory with _ | m
  · rw [hm] at hc
    cases hc
    have hlookup (s : Slot) (h : r.lookup i = .registered s) : r.Places i memory s :=
      .inl (lookup_eq_registered_iff.mp h)
    exact ⟨hlookup, fun s h => (places_memoryOf h).elim .inl (hlookup s)⟩
  · rw [hm] at hc
    cases hc
    refine ⟨?_, fun _ h => h⟩
    rintro s rfl
    obtain ⟨c, hc, hr, -, hst⟩ := recollect_eq_some hm
    exact .inr ⟨c, hc, hr, hst⟩

theorem register_cases (r : Roster) (who : OsThread) (q : Quota) (memory : Memory) :
    (∃ s, r.slot? who.id = some s ∧ r.register who q memory = ⟨r, q, memory, some s⟩) ∨
    (∃ q', r.slot? who.id = none ∧ r.register who q memory =
      ⟨r.enlist who, q', r.memoryOf (.registered r.callStacks.size), some r.callStacks.size⟩) ∨
    r.register who q memory = ⟨r, q, r.memoryOf .denied, none⟩ := by
  rcases hs : r.slot? who.id with _ | s
  · rcases register_of_slot?_eq_none hs q memory with ⟨q', -, -, heq⟩ | ⟨-, heq⟩
    · exact .inr (.inl ⟨q', rfl, heq⟩)
    · exact .inr (.inr heq)
  · have hfound : r.members.lookup who.id = some s := hs
    exact .inl ⟨s, rfl, by rw [register, hfound]⟩

theorem places_enlist {who : OsThread} (hnone : r.slot? who.id = none)
    (h : (r.enlist who).Places who.id (r.memoryOf (.registered r.callStacks.size)) s) :
    s = r.callStacks.size := by
  have hself := slot?_enlist_self who hnone
  rcases places_memoryOf (r := r.enlist who) h with h | h
  · exact Option.some.inj (h.symm.trans hself)
  · exact (Standing.registered.inj h).symm

end Roster

/-- Whether a call of thread `i` has to do with slot `s`, or may yet. -/
def Local.Leads (l : Local) (i : Nat) (stage : Stage) (s : Slot) : Prop :=
  stage.slot? = some s ∨ l.tracer.roster.Places i l.memory s

namespace Call.Goes
variable {c : Call} {who : OsThread} {l l' : Local} {stage stage' : Stage} {s : Slot}

theorem slot?_of_ne (h : c.Goes who l stage l' stage') {j : Nat} (hj : j ≠ who.id) :
    l'.tracer.roster.slot? j = l.tracer.roster.slot? j := by
  cases h.seats with
  | same h => exact h.slot? j
  | enlist _ _ _ _ hr _ _ => rw [hr, Roster.slot?_enlist_of_ne hj]

/-- A call comes to no slot but one of its thread, unless it makes a new one. -/
theorem leads (h : c.Goes who l stage l' stage') (hs : l'.Leads who.id stage' s) :
    l.Leads who.id stage s ∨
      s = l.tracer.roster.callStacks.size ∧ l'.tracer.roster = l.tracer.roster.enlist who := by
  by_cases hg : stage.guards = true ∨ stage'.guards = true
  · obtain ⟨slot, hslot, hslot', hmemory, hr, -, -⟩ := h.reworks hg
    rcases hs with hs | hs
    · exact .inl (.inl (hslot' s hs ▸ hslot))
    · exact .inl (.inr ((hmemory ▸ hs).congr (by rw [hr.roster]) (hr.slot? _)))
  cases h with
  | suspended | start | lost | skip | guarded => exact .inl (.inr (hs.resolve_left nofun))
  | find hc =>
    obtain ⟨hfound, hkept⟩ := Roster.places_consult hc
    rcases hs with hs | hs
    · cases hs
      exact .inl (.inr (hfound _ rfl))
    · exact .inl (.inr (hkept s hs))
  | denied hc | stranger hc =>
    exact .inl (.inr ((Roster.places_consult hc).2 s (hs.resolve_left nofun)))
  | @register t memory memory' epoch slot hc _ hr =>
    rcases t.roster.register_cases who t.quota memory' with
      ⟨s', hs', heq⟩ | ⟨q', hnone, heq⟩ | heq <;> rw [heq] at hr hs ⊢ <;> cases hr
    · rcases hs with hs | hs
      · cases hs
        exact .inl (.inr (.inl hs'))
      · exact .inl (.inr ((Roster.places_consult hc).2 s hs))
    · refine .inr ⟨?_, rfl⟩
      rcases hs with hs | hs
      · exact (Option.some.inj hs).symm
      · exact Roster.places_enlist hnone hs
  | @refuse t memory memory' epoch hc _ hr =>
    rcases t.roster.register_cases who t.quota memory' with
      ⟨s', hs', heq⟩ | ⟨q', hnone, heq⟩ | heq <;> rw [heq] at hr hs ⊢ <;> cases hr
    exact .inl (.inr ((Roster.places_memoryOf (hs.resolve_left nofun)).elim .inl nofun))
  | clear | ended => exact .inl hs
  | guard => exact absurd (.inr rfl) hg
  | act | tell | close => exact absurd (.inl rfl) hg

/-- A guard changes with what holds it. -/
theorem stack_guard (h : c.Goes who l stage l' stage') {d : CallStack}
    (hd : l'.tracer.roster.stack? s = some d) :
    (∃ d₀, l.tracer.roster.stack? s = some d₀ ∧
      d.guard = d₀.guard + Int32.ofInt (stage'.weightAt s - stage.weightAt s)) ∨
    s = l.tracer.roster.callStacks.size ∧ l'.tracer.roster = l.tracer.roster.enlist who ∧
      d.guard = 0 ∧ stage'.weightAt s = 0 := by
  by_cases hg : stage.guards = true ∨ stage'.guards = true
  · obtain ⟨slot, hslot, hslot', -, hr, -, -⟩ := h.reworks hg
    obtain ⟨d₀, hd₀, hguard⟩ := hr.guard hd
    refine .inl ⟨d₀, hd₀, ?_⟩
    have hslot₀ (s : Slot) (hs : stage.slot? = some s) : s = slot :=
      Option.some.inj (hs.symm.trans hslot)
    rw [hguard, Stage.weightAt_eq hslot', Stage.weightAt_eq hslot₀]
    split <;> rfl
  rw [not_or, Bool.not_eq_true, Bool.not_eq_true] at hg
  rw [Stage.weightAt_of_not_guards hg.1, Stage.weightAt_of_not_guards hg.2]
  cases h with
  | @register t memory memory' epoch slot hc _ hr =>
    rcases t.roster.register_cases who t.quota memory' with
      ⟨s', hs', heq⟩ | ⟨q', hnone, heq⟩ | heq <;> rw [heq] at hr hd ⊢ <;> cases hr
    · exact .inl ⟨d, hd, (Int32.add_zero _).symm⟩
    · by_cases hs : s < t.roster.callStacks.size
      · exact .inl ⟨d, (Roster.stack?_enlist_of_lt hs).symm.trans hd, (Int32.add_zero _).symm⟩
      · have hlt : s < (t.roster.enlist who).callStacks.size := Roster.lt_size_of_stack? hd
        rw [Roster.enlist, Array.size_push] at hlt
        obtain rfl : s = t.roster.callStacks.size :=
          Nat.le_antisymm (Nat.le_of_lt_succ hlt) (Nat.le_of_not_lt hs)
        cases (t.roster.stack?_enlist_size who).symm.trans hd
        exact .inr ⟨rfl, rfl, rfl, rfl⟩
  | @refuse t memory memory' epoch hc _ hr =>
    rcases t.roster.register_cases who t.quota memory' with
      ⟨s', hs', heq⟩ | ⟨q', hnone, heq⟩ | heq <;> rw [heq] at hr hd ⊢ <;> cases hr
    exact .inl ⟨d, hd, (Int32.add_zero _).symm⟩
  | guard => cases hg.2
  | act | tell | close => cases hg.1
  | _ => exact .inl ⟨d, hd, (Int32.add_zero d.guard).symm⟩

end Call.Goes

namespace Machine

/-- Whether thread `i` has to do with slot `s`, or may yet. -/
def Concerns (m : Machine) (i : Nat) (s : Slot) : Prop :=
  m.tracer.roster.Places i (m.memory i) s ∨ ∃ a ∈ m.active i, a.stage.slot? = some s

structure Accounted (m : Machine) : Prop where
  slot_lt : ∀ i s, m.Concerns i s → s < m.tracer.roster.callStacks.size
  guard : ∀ s c, m.tracer.roster.stack? s = some c → ∃ i, (∀ j, m.Concerns j s → j = i) ∧
    c.guard.toInt = m.tracer.suspension.held.count s + weightAt s (m.active i)
  single : ∀ i s, weightAt s (m.active i) ≤ 1
  held : m.tracer.suspension.held.Nodup
  held_lt : ∀ s ∈ m.tracer.suspension.held, s < m.tracer.roster.callStacks.size
  free : m.tracer.suspension.suspended = false → m.tracer.suspension.held = []

variable {m m' : Machine}

namespace Accounted

theorem new (id : Nat) (s : Settings) (hasHandler : Bool) :
    (Machine.new (.new id s hasHandler)).Accounted where
  slot_lt i s hs := by
    rcases hs with (hs | ⟨c, hc, -⟩) | ⟨a, ha, -⟩
    · cases hs
    · cases hc
    · cases ha
  guard s c hc := by simp [Machine.new, Tracer.new, Roster.new, Roster.stack?] at hc
  single _ _ := Int.zero_le_ofNat 1
  held := List.nodup_nil
  held_lt := List.forall_mem_nil _
  free _ := rfl

/-- Moves that touch neither stacks nor guards, and by which no thread comes to a slot. -/
theorem congr (h : m.Accounted)
    (hc : m'.tracer.roster.callStacks = m.tracer.roster.callStacks)
    (hconcerns : ∀ i s, m'.Concerns i s → m.Concerns i s)
    (hs : m'.tracer.suspension = m.tracer.suspension)
    (hweight : ∀ i s, weightAt s (m'.active i) = weightAt s (m.active i)) : m'.Accounted where
  slot_lt i s hi := by
    rw [hc]
    exact h.slot_lt i s (hconcerns i s hi)
  guard s c hstack := by
    rw [Roster.stack?, hc] at hstack
    obtain ⟨i, hi, hg⟩ := h.guard s c hstack
    exact ⟨i, fun j hj => hi j (hconcerns j s hj), by rw [hs, hweight]; exact hg⟩
  single i s := by
    rw [hweight]
    exact h.single i s
  held := by
    rw [hs]
    exact h.held
  held_lt := by
    rw [hs, hc]
    exact h.held_lt
  free := by
    rw [hs]
    exact h.free

/-- No call holds the guard of a stack that is not guarded. -/
theorem weightAt_le_zero (h : m.Accounted) {i : Nat} {a : Activity} (ha : a ∈ m.active i) {s : Slot}
    (hslot : a.stage.slot? = some s)
    (hfree : ∀ c, m.tracer.roster.stack? s = some c → c.guarded = false) :
    weightAt s (m.active i) ≤ 0 := by
  have hconcerns : m.Concerns i s := .inr ⟨a, ha, hslot⟩
  rcases hc : m.tracer.roster.stack? s with _ | c
  · exact absurd (Roster.stack?_eq_none_iff.mp hc) (Nat.not_le_of_lt (h.slot_lt i s hconcerns))
  obtain ⟨j, hj, hg⟩ := h.guard s c hc
  obtain rfl : i = j := hj i hconcerns
  have hfree := CallStack.guarded_eq_false_iff.mp (hfree c hc)
  omega

section put
variable {who : OsThread} {a : Activity} {rest : List Activity} {l : Local} {stage : Stage}

theorem concerns_put (hact : m.active who.id = a :: rest)
    (hgoes : a.call.Goes who ⟨m.tracer, m.memory who.id⟩ a.stage l stage) {j : Nat} {s : Slot}
    (hj : (m.put who.id l (a.next stage ++ rest)).Concerns j s) :
    m.Concerns j s ∨ j = who.id ∧ s = m.tracer.roster.callStacks.size ∧
      l.tracer.roster = m.tracer.roster.enlist who := by
  have ha : a ∈ m.active who.id := by rw [hact]; exact List.mem_cons_self
  by_cases hji : j = who.id
  · subst hji
    have hleads (h : l.Leads who.id stage s) : m.Concerns who.id s ∨ who.id = who.id ∧
        s = m.tracer.roster.callStacks.size ∧ l.tracer.roster = m.tracer.roster.enlist who := by
      rcases hgoes.leads h with (h | h) | ⟨hs, hl⟩
      · exact .inl (.inr ⟨a, ha, h⟩)
      · exact .inl (.inl h)
      · exact .inr ⟨rfl, hs, hl⟩
    rcases hj with hj | ⟨b, hb, hbs⟩
    · change l.tracer.roster.Places _ (Function.update m.memory who.id l.memory who.id) s at hj
      rw [Function.update_self] at hj
      exact hleads (.inr hj)
    · rcases mem_put_next hact hb with ⟨-, rfl, -⟩ | hb
      · exact hleads (.inl hbs)
      · exact .inl (.inr ⟨b, hb, hbs⟩)
  · rcases hj with hj | ⟨b, hb, hbs⟩
    · change l.tracer.roster.Places j (Function.update m.memory who.id l.memory j) s at hj
      rw [Function.update_of_ne hji] at hj
      exact .inl (.inl (hj.congr hgoes.roster_same.1 (hgoes.slot?_of_ne hji)))
    · rcases mem_put_next hact hb with ⟨hj, -, -⟩ | hb
      · exact absurd hj hji
      · exact .inl (.inr ⟨b, hb, hbs⟩)

/-- The guard of a stack that was there before. -/
theorem put_guard (h : m.Accounted) (hact : m.active who.id = a :: rest)
    (hgoes : a.call.Goes who ⟨m.tracer, m.memory who.id⟩ a.stage l stage) {s : Slot}
    {d₀ : CallStack} (hd₀ : m.tracer.roster.stack? s = some d₀) :
    ∃ i, (∀ j, (m.put who.id l (a.next stage ++ rest)).Concerns j s → j = i) ∧
      d₀.guard.toInt + (stage.weightAt s - a.stage.weightAt s) = m.tracer.suspension.held.count s +
        weightAt s ((m.put who.id l (a.next stage ++ rest)).active i) := by
  have ha : a ∈ m.active who.id := by rw [hact]; exact List.mem_cons_self
  have hlt := Roster.lt_size_of_stack? hd₀
  obtain ⟨i, hi, hg₀⟩ := h.guard s d₀ hd₀
  refine ⟨i, fun j hj => ?_, ?_⟩
  · rcases concerns_put hact hgoes hj with hj | ⟨-, rfl, -⟩
    · exact hi j hj
    · exact absurd hlt (Nat.lt_irrefl _)
  show _ = _ + weightAt s (Function.update m.active who.id (a.next stage ++ rest) i)
  by_cases hiw : i = who.id
  · rw [hiw, Function.update_self, weightAt_next]
    rw [hiw, hact, weightAt_cons] at hg₀
    omega
  · -- neither before nor after does the call have to do with the slot
    have hstage₀ : a.stage.weightAt s = 0 :=
      Stage.weightAt_of_ne fun hs => hiw (hi who.id (.inr ⟨a, ha, hs⟩)).symm
    have hstage : stage.weightAt s = 0 := by
      refine Stage.weightAt_of_ne fun hs => ?_
      rcases hgoes.leads (.inl hs) with (hs | hs) | ⟨rfl, -⟩
      · exact hiw (hi who.id (.inr ⟨a, ha, hs⟩)).symm
      · exact hiw (hi who.id (.inl hs)).symm
      · exact Nat.lt_irrefl _ hlt
    rw [Function.update_of_ne hiw]
    omega

/-- A call takes the guard of a stack only if no call holds it. -/
theorem put_single (h : m.Accounted) (hact : m.active who.id = a :: rest)
    (hgoes : a.call.Goes who ⟨m.tracer, m.memory who.id⟩ a.stage l stage) (j : Nat) (s : Slot) :
    weightAt s ((m.put who.id l (a.next stage ++ rest)).active j) ≤ 1 := by
  have ha : a ∈ m.active who.id := by rw [hact]; exact List.mem_cons_self
  by_cases hg : a.stage.guards = true ∨ stage.guards = true
  · obtain ⟨slot, hslot, hslot', -, -, hfree, -⟩ := hgoes.reworks hg
    exact weightAt_put_le_one hact hslot hslot' h.single
      (hfree.imp_right fun hfree => h.weightAt_le_zero ha hslot hfree.2) l s j
  · rw [not_or, Bool.not_eq_true, Bool.not_eq_true] at hg
    rw [weightAt_put_of_not_guards hact hg.1 hg.2]
    exact h.single j s

/-- The guard of a stack that is new: neither the suspension nor a call has anything to do with it. -/
theorem put_guard_size (h : m.Accounted) (hact : m.active who.id = a :: rest)
    (hgoes : a.call.Goes who ⟨m.tracer, m.memory who.id⟩ a.stage l stage)
    (hweight : stage.weightAt m.tracer.roster.callStacks.size = 0) :
    (∀ j, (m.put who.id l (a.next stage ++ rest)).Concerns j m.tracer.roster.callStacks.size →
      j = who.id) ∧
    m.tracer.suspension.held.count m.tracer.roster.callStacks.size +
      weightAt m.tracer.roster.callStacks.size
        ((m.put who.id l (a.next stage ++ rest)).active who.id) = 0 := by
  have hheld : m.tracer.suspension.held.count m.tracer.roster.callStacks.size = 0 :=
    List.count_eq_zero.mpr fun hs => Nat.lt_irrefl _ (h.held_lt _ hs)
  have hrest : weightAt m.tracer.roster.callStacks.size rest = 0 := by
    refine weightAt_eq_zero fun b hb hs => ?_
    have hb : b ∈ m.active who.id := by rw [hact]; exact List.mem_cons_of_mem _ hb
    exact Nat.lt_irrefl _ (h.slot_lt who.id _ (.inr ⟨b, hb, hs⟩))
  refine ⟨fun j hj => ?_, ?_⟩
  · rcases concerns_put hact hgoes hj with hj | ⟨hj, -, -⟩
    · exact absurd (h.slot_lt j _ hj) (Nat.lt_irrefl _)
    · exact hj
  · show _ + weightAt _ (Function.update m.active who.id (a.next stage ++ rest) who.id) = 0
    rw [Function.update_self, weightAt_next, hheld, hrest, hweight]
    rfl

/-- The innermost call of a thread goes on. -/
theorem put (h : m.Accounted) (hact : m.active who.id = a :: rest)
    (hgoes : a.call.Goes who ⟨m.tracer, m.memory who.id⟩ a.stage l stage) :
    (m.put who.id l (a.next stage ++ rest)).Accounted := by
  have hnew : l.tracer.roster = m.tracer.roster.enlist who →
      m.tracer.roster.callStacks.size < l.tracer.roster.callStacks.size := by
    intro hl
    rw [hl, Roster.enlist, Array.size_push]
    exact Nat.lt_succ_self _
  have hsize : m.tracer.roster.callStacks.size ≤ l.tracer.roster.callStacks.size := by
    cases hgoes.seats with
    | same hr => exact Nat.le_of_eq hr.size.symm
    | enlist _ _ _ _ hr => exact Nat.le_of_lt (hnew hr)
  have hsuspension : (m.put who.id l (a.next stage ++ rest)).tracer.suspension =
      m.tracer.suspension := hgoes.suspension
  refine ⟨fun j s hj => ?_, fun s d hd => ?_, h.put_single hact hgoes, ?_, ?_, ?_⟩
  · rcases concerns_put hact hgoes hj with hj | ⟨-, hs, hl⟩
    · exact Nat.lt_of_lt_of_le (h.slot_lt j s hj) hsize
    · exact hs ▸ hnew hl
  · rw [hsuspension]
    rcases hgoes.stack_guard hd with ⟨d₀, hd₀, hg⟩ | ⟨rfl, -, hg, hweight⟩
    · obtain ⟨i, hi, hsum⟩ := h.put_guard hact hgoes hd₀
      have := h.put_single hact hgoes i s
      have := weightAt_nonneg s ((m.put who.id l (a.next stage ++ rest)).active i)
      have := List.nodup_iff_count_le_one.mp h.held s
      rw [hg]
      exact ⟨i, hi, (CallStack.toInt_guard_add (by omega) (by omega)).trans hsum⟩
    · obtain ⟨hconcerns, hzero⟩ := h.put_guard_size hact hgoes hweight
      refine ⟨who.id, hconcerns, ?_⟩
      rw [hg, hzero]
      rfl
  · rw [hsuspension]
    exact h.held
  · rw [hsuspension]
    exact fun s hs => Nat.lt_of_lt_of_le (h.held_lt s hs) hsize
  · rw [hsuspension]
    exact h.free

end put

theorem push (h : m.Accounted) (i : Nat) (c : Call) (counted : Bool) :
    (m.push i ⟨c, counted, .called⟩).Accounted := by
  refine h.congr rfl (fun j s hj => ?_) rfl fun j s => ?_
  · rcases hj with hj | ⟨b, hb, hbs⟩
    · exact .inl hj
    · refine .inr ⟨b, ?_, hbs⟩
      simp only [Machine.push, Function.update_apply] at hb
      split at hb
      · rename_i hji
        rcases List.mem_cons.mp hb with rfl | hb
        · cases hbs
        · exact hji ▸ hb
      · exact hb
  · simp only [Machine.push, Function.update_apply]
    split
    · rename_i hji
      rw [weightAt_cons, Stage.weightAt_of_not_guards (by rfl), Int.zero_add, hji]
    · rfl

theorem advance (h : m.Accounted) (who : OsThread) : (m.advance who).Accounted := by
  rcases hact : m.active who.id with _ | ⟨a, rest⟩
  · rwa [advance_of_idle hact]
  obtain ⟨l, stage, hgoes, heq⟩ := m.proceed_goes who a rest
  rw [Machine.advance, hact]
  dsimp only
  rw [heq]
  refine (h.put hact hgoes).congr (by simp [Machine.put]) (fun j s hj => ?_) (by simp [Machine.put])
    fun _ _ => rfl
  simpa only [Concerns, Machine.put, Activity.settle_roster] using hj

theorem call (h : m.Accounted) (who : OsThread) (c : Call) (counted : Bool) :
    (m.call who c counted).Accounted := by
  by_cases hr : m.ready who.id = true
  · have hnote : (m.note who.id c).Accounted := by
      refine h.congr (by simp) (fun j s hj => ?_) (by simp) (by simp)
      simpa only [Concerns, note_tracer, note_memory, note_active] using hj
    rw [m.call_eq who c counted hr]
    exact (hnote.push who.id c counted).advance who
  · rwa [Machine.call, if_neg hr]

/-- What suspending and resuming have in common: guards change, and nobody moves. -/
theorem control (h : m.Accounted) {t : Tracer} (hr : m.tracer.roster.SameSeats t.roster)
    (hguard : ∀ s d, t.roster.stack? s = some d → ∃ d₀, m.tracer.roster.stack? s = some d₀ ∧
      ∀ w, 0 ≤ w → w ≤ 1 → d₀.guard.toInt = m.tracer.suspension.held.count s + w →
        d.guard.toInt = t.suspension.held.count s + w)
    (hheld : t.suspension.held.Nodup)
    (hlt : ∀ s ∈ t.suspension.held, s < m.tracer.roster.callStacks.size)
    (hfree : t.suspension.suspended = false → t.suspension.held = []) (n : Nat) :
    { m with tracer := t, suspensions := n }.Accounted := by
  have hconcerns (i : Nat) (s : Slot) (hi : { m with tracer := t, suspensions := n }.Concerns i s) :
      m.Concerns i s := hi.imp_left fun hi => hi.congr hr.id (hr.slot? i)
  refine ⟨fun i s hi => ?_, fun s d hd => ?_, h.single, hheld, ?_, hfree⟩
  · show s < t.roster.callStacks.size
    rw [hr.size]
    exact h.slot_lt i s (hconcerns i s hi)
  · obtain ⟨d₀, hd₀, hchange⟩ := hguard s d hd
    obtain ⟨i, hi, hg⟩ := h.guard s d₀ hd₀
    exact ⟨i, fun j hj => hi j (hconcerns j s hj),
      hchange _ (weightAt_nonneg s _) (h.single i s) hg⟩
  · show ∀ s ∈ t.suspension.held, s < t.roster.callStacks.size
    rw [hr.size]
    exact hlt

theorem suspend (h : m.Accounted) (hnodup : m.tracer.roster.slots.Nodup)
    (hlt : ∀ s ∈ m.tracer.roster.slots, s < m.tracer.roster.callStacks.size) :
    m.suspend.Accounted := by
  rcases m.suspend_cases with heq | ⟨hs, heq⟩ <;> rw [heq]
  · exact h
  refine h.control (Roster.SameSeats.foldl_modify (f := CallStack.bump) (fun _ => rfl) _ _)
    (fun s d hd => ?_) hnodup hlt (fun hs => by cases hs) _
  rw [Suspension.stack?_bumpAll] at hd
  obtain ⟨d₀, hd₀, rfl⟩ := Option.map_eq_some_iff.mp hd
  refine ⟨d₀, hd₀, fun w _ hw hg => ?_⟩
  rw [h.free hs, List.count_nil] at hg
  have := List.nodup_iff_count_le_one.mp hnodup s
  show (d₀.guard + Int32.ofNat (m.tracer.roster.slots.count s)).toInt =
    m.tracer.roster.slots.count s + w
  rw [CallStack.toInt_guard_add_ofNat (by omega)]
  omega

theorem resume (h : m.Accounted) : m.resume.Accounted := by
  rcases m.resume_cases with heq | ⟨-, heq⟩ <;> rw [heq]
  · exact h
  have hle (s : Slot) (d : CallStack) (hd : m.tracer.roster.stack? s = some d) :
      m.tracer.suspension.held.count s ≤ d.guard.toInt := by
    obtain ⟨i, -, hg⟩ := h.guard s d hd
    have := weightAt_nonneg s (m.active i)
    omega
  refine h.control (Roster.SameSeats.foldl_modify (f := CallStack.release) (fun d => ?_) _ _)
    (fun s d hd => ?_) List.nodup_nil (List.forall_mem_nil _) (fun _ => rfl) _
  · unfold CallStack.release
    split <;> rfl
  · rw [Suspension.stack?_releaseAll (hle s)] at hd
    obtain ⟨d₀, hd₀, rfl⟩ := Option.map_eq_some_iff.mp hd
    refine ⟨d₀, hd₀, fun w _ _ hg => ?_⟩
    show (d₀.guard - Int32.ofNat (m.tracer.suspension.held.count s)).toInt = (0 : Nat) + w
    rw [CallStack.toInt_guard_sub_ofNat (hle s d₀ hd₀)]
    omega

/-- A reset leaves all stacks as they are, but no thread finds one any more. -/
theorem reset (h : m.Accounted) (l : Settings.Limits) : (m.reset l).Accounted := by
  rcases hr : m.tracer.reset l with e | t
  · rwa [Machine.reset, hr]
  obtain ⟨-, rfl⟩ := Tracer.reset_eq_ok hr
  rw [Machine.reset, hr]
  refine h.congr rfl (fun i s hi => ?_) rfl fun _ _ => rfl
  rcases hi with (hi | hi) | hi
  · cases hi
  · exact .inl (.inr hi)
  · exact .inr hi

/-- What a thread is told or learns elsewhere leads it to no new slot. -/
theorem remember (h : m.Accounted) {i : Nat} {memory : Memory}
    (hmemory : ∀ s, m.tracer.roster.Places i memory s → m.tracer.roster.Places i (m.memory i) s) :
    (m.remember i memory).Accounted := by
  refine h.congr rfl (fun j s hj => hj.imp_left fun hj => ?_) rfl fun _ _ => rfl
  change m.tracer.roster.Places j (Function.update m.memory i memory j) s at hj
  rw [Function.update_apply] at hj
  split at hj
  · rename_i hji
    rw [hji] at hj ⊢
    exact hmemory s hj
  · exact hj

theorem step (h : m.Accounted) {limit : UInt32}
    (hseated : m.tracer.roster.Seated m.tracer.quota limit) (x : Move) : (m.step x).Accounted := by
  cases x with
  | call who c counted => exact h.call who c counted
  | advance who => exact h.advance who
  | suspend => exact h.suspend hseated.nodup_slots fun s hs => (hseated.mem_slots.mp hs).2
  | resume => exact h.resume
  | reset l => exact h.reset l
  | exclude i =>
    have hexclude : { m with tracer := (m.tracer.exclude i).1 }.Accounted :=
      h.congr rfl (fun _ _ hi => hi) rfl fun _ _ => rfl
    exact hexclude.remember fun s hs => (Roster.places_memoryOf hs).elim .inl nofun
  | look i =>
    refine h.remember fun s hs => ?_
    rcases hc : m.tracer.roster.consult i (m.memory i) with ⟨st, memory⟩
    rw [m.tracer.look_memory, hc] at hs
    exact (Roster.places_consult hc).2 s hs
  | elsewhere i r =>
    rw [Machine.step]
    split
    · exact h
    · rename_i hr
      refine h.remember fun s hs => .inl ?_
      rcases hs with hs | ⟨c, hc, hid, -⟩
      · exact hs
      · cases hc
        exact absurd hid hr
  | drain | notify | receive => exact h.congr rfl (fun _ _ hi => hi) rfl fun _ _ => rfl

end Accounted

end Machine

end MethodTrace
