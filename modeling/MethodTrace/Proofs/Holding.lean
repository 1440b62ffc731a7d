import MethodTrace.Proofs.Orderly
import MethodTrace.Proofs.Outcome

/-!
# Who holds the guards

A guard is what the suspension in force and the calls in progress make of it, also of a stack that a
reset has left behind: no two threads have to do with one stack (`Machine.Holding.owned`). A call
that tells a first invocation holds its guard all the while. So as long as its thread keeps its slot,
a call within the telling cannot get as far as the guard (`Activity.Yields`).
-/

namespace MethodTrace

/-- How often a call holds the guard of the stack in slot `s`. -/
def Stage.weightAt (stage : Stage) (s : Slot) : Int := if stage.slot? = some s then stage.weight else 0

/-- How often the calls of a thread hold the guard of the stack in slot `s`. -/
def weightAt (s : Slot) : List Activity → Int
  | [] => 0
  | a :: calls => a.stage.weightAt s + weightAt s calls

/-- Call `a` has been made while `b` was telling a first invocation. If `b` has the slot that thread
`i` has now, then `a` has no slot but this one, and not its guard. -/
def Activity.Yields (r : Roster) (i : Nat) (a b : Activity) : Prop :=
  b.stage.tells = true ∧ ∀ s, b.stage.slot? = some s → r.slot? i = some s →
    a.stage.isEarly = true ∧ ∀ s', a.stage.slot? = some s' → s' = s

namespace Stage
variable {stage : Stage} {s : Slot}

theorem weightAt_nonneg (stage : Stage) (s : Slot) : 0 ≤ stage.weightAt s := by
  unfold weightAt
  split
  · exact stage.weight_nonneg
  · exact Int.le_refl 0

theorem weightAt_of_not_guards (h : stage.guards = false) (s : Slot) : stage.weightAt s = 0 := by
  rw [weightAt, weight_of_not_guards h, ite_self]

theorem weightAt_of_slot? (h : stage.slot? = some s) : stage.weightAt s = stage.weight := if_pos h

theorem weightAt_of_ne (h : stage.slot? ≠ some s) : stage.weightAt s = 0 := if_neg h

/-- Who holds a guard has a slot. -/
theorem exists_slot? (h : stage.guards = true) : ∃ s, stage.slot? = some s := by
  cases stage <;> first | exact ⟨_, rfl⟩ | cases h

theorem weightAt_eq {slot : Slot} (h : ∀ s, stage.slot? = some s → s = slot)
    (s : Slot) : stage.weightAt s = if s = slot then stage.weight else 0 := by
  cases hg : stage.guards with
  | true =>
    obtain ⟨s', hs'⟩ := exists_slot? hg
    obtain rfl := h s' hs'
    by_cases hs : s = s'
    · rw [if_pos hs, hs, weightAt_of_slot? hs']
    · rw [if_neg hs, weightAt_of_ne fun h' => hs (Option.some.inj (h'.symm.trans hs'))]
  | false => rw [weightAt_of_not_guards hg, weight_of_not_guards hg, ite_self]

end Stage

section weightAt
variable {s : Slot} {a : Activity} {calls : List Activity}

@[simp] theorem weightAt_cons (s : Slot) (a : Activity) (calls : List Activity) :
    weightAt s (a :: calls) = a.stage.weightAt s + weightAt s calls := rfl

theorem weightAt_next (s : Slot) (a : Activity) (stage : Stage) (rest : List Activity) :
    weightAt s (a.next stage ++ rest) = stage.weightAt s + weightAt s rest := by
  cases stage <;> simp [Activity.next, Stage.weightAt, Stage.slot?]

theorem weightAt_nonneg (s : Slot) (calls : List Activity) : 0 ≤ weightAt s calls := by
  induction calls with
  | nil => exact Int.le_refl 0
  | cons a calls ih => exact Int.add_nonneg (a.stage.weightAt_nonneg s) ih

theorem one_le_weightAt (ha : a ∈ calls) (hg : a.stage.guards = true)
    (hs : a.stage.slot? = some s) : 1 ≤ weightAt s calls := by
  induction calls with
  | nil => cases ha
  | cons b calls ih =>
    rw [weightAt_cons]
    rcases List.mem_cons.mp ha with rfl | ha
    · rw [Stage.weightAt_of_slot? hs, Stage.weight_of_guards hg]
      exact Int.le_add_of_nonneg_right (weightAt_nonneg s calls)
    · exact Int.le_trans (ih ha) (Int.le_add_of_nonneg_left (b.stage.weightAt_nonneg s))

theorem weightAt_eq_zero (h : ∀ a ∈ calls, a.stage.slot? ≠ some s) : weightAt s calls = 0 := by
  induction calls with
  | nil => rfl
  | cons a calls ih =>
    obtain ⟨ha, hcalls⟩ := List.forall_mem_cons.mp h
    rw [weightAt_cons, Stage.weightAt_of_ne ha, ih hcalls, Int.add_zero]

end weightAt

/-- The guard of a stack changes only in the slot that is reworked. -/
theorem Tracer.Reworks.guard {t t' : Tracer} {slot s : Slot} {δ : Int} (h : t.Reworks slot δ t')
    {d : CallStack} (hd : t'.roster.stack? s = some d) : ∃ d₀, t.roster.stack? s = some d₀ ∧
      d.guard = d₀.guard + Int32.ofInt (if s = slot then δ else 0) := by
  obtain ⟨d₀, hd₀, -⟩ := h.stack_lt hd
  refine ⟨d₀, hd₀, ?_⟩
  by_cases hs : s = slot
  · subst hs
    obtain ⟨d', hd', -, hg⟩ := h.own d₀ hd₀
    cases hd.symm.trans hd'
    rw [hg, if_pos rfl]
  · rw [h.others s hs, hd₀] at hd
    cases hd
    rw [if_neg hs]
    exact (Int32.add_zero _).symm

namespace Activity
variable {r r' : Roster} {i : Nat} {a b : Activity}

theorem Yields.congr (hr : r'.slot? i = r.slot? i) (h : a.Yields r i b) : a.Yields r' i b :=
  ⟨h.1, fun s hs hi => h.2 s hs (hr ▸ hi)⟩

theorem yields_of_called (hs : a.stage = .called) (ht : b.stage.tells = true) : a.Yields r i b := by
  refine ⟨ht, fun _ _ _ => ?_⟩
  rw [hs]
  exact ⟨rfl, fun _ h => by cases h⟩

theorem pairwise_next {R : Activity → Activity → Prop} {stage : Stage} {rest : List Activity}
    (h : (a :: rest).Pairwise R)
    (hstage : ∀ b ∈ rest, R a b → stage.isOver = false → R { a with stage := stage } b) :
    (a.next stage ++ rest).Pairwise R := by
  obtain ⟨ha, hrest⟩ := List.pairwise_cons.mp h
  cases hover : stage.isOver with
  | true =>
    rw [next_of_isOver hover]
    exact hrest
  | false =>
    rw [next_of_not_isOver hover]
    exact List.pairwise_cons.mpr ⟨fun b hb => hstage b hb (ha b hb) hover, hrest⟩

end Activity

namespace Machine

/-- Nobody but thread `i` has to do with the stack in slot `s`. -/
structure Owns (m : Machine) (i : Nat) (s : Slot) : Prop where
  member : ∀ j, m.tracer.roster.slot? j = some s → j = i
  calls : ∀ j, ∀ a ∈ m.active j, a.stage.slot? = some s → j = i

structure Holding (m : Machine) : Prop where
  slot_lt : ∀ i, ∀ a ∈ m.active i, ∀ s, a.stage.slot? = some s →
    s < m.tracer.roster.callStacks.size
  owned : ∀ s c, m.tracer.roster.stack? s = some c → ∃ i, m.Owns i s ∧
    c.guard.toInt = m.tracer.suspension.weight s + weightAt s (m.active i)
  single : ∀ i s, weightAt s (m.active i) ≤ 1
  yields : ∀ i, (m.active i).Pairwise (Activity.Yields m.tracer.roster i)
  held : m.tracer.suspension.held.Nodup
  held_lt : ∀ s ∈ m.tracer.suspension.held, s < m.tracer.roster.callStacks.size
  free : m.tracer.suspension.suspended = false → m.tracer.suspension.held = []

variable {m : Machine} {i : Nat} {a b : Activity} {rest : List Activity} {stage : Stage}

theorem mem_put {l : Local} {calls : List Activity} {j : Nat} {b : Activity}
    (hb : b ∈ (m.put i l calls).active j) : j = i ∧ b ∈ calls ∨ j ≠ i ∧ b ∈ m.active j := by
  simp only [put, Function.update_apply] at hb
  split at hb
  · rename_i hj
    exact .inl ⟨hj, hb⟩
  · rename_i hj
    exact .inr ⟨hj, hb⟩

/-- Of the calls of a thread one has come to another stage, or to its end. -/
theorem mem_put_next {l : Local} (hact : m.active i = a :: rest) {j : Nat} {b : Activity}
    (hb : b ∈ (m.put i l (a.next stage ++ rest)).active j) :
    j = i ∧ b = { a with stage := stage } ∧ stage.isOver = false ∨ b ∈ m.active j := by
  rcases mem_put hb with ⟨hj, hb⟩ | ⟨-, hb⟩
  · rcases List.mem_append.mp hb with hb | hb
    · exact .inl ⟨hj, Activity.eq_of_mem_next hb⟩
    · exact .inr (by rw [hj, hact]; exact List.mem_cons_of_mem _ hb)
  · exact .inr hb

/-- The guards that a thread's calls hold change with the call that goes on. -/
theorem weightAt_put (hact : m.active i = a :: rest) (l : Local) (s : Slot) (j : Nat) :
    weightAt s ((m.put i l (a.next stage ++ rest)).active j) =
      weightAt s (m.active j) + if j = i then stage.weightAt s - a.stage.weightAt s else 0 := by
  simp only [put, Function.update_apply]
  split
  · rename_i hj
    rw [hj, hact, weightAt_next, weightAt_cons]
    omega
  · exact (Int.add_zero _).symm

theorem weightAt_put_of_not_guards (hact : m.active i = a :: rest) (ha : a.stage.guards = false)
    (hs : stage.guards = false) (l : Local) (s : Slot) (j : Nat) :
    weightAt s ((m.put i l (a.next stage ++ rest)).active j) = weightAt s (m.active j) := by
  rw [weightAt_put hact, Stage.weightAt_of_not_guards ha, Stage.weightAt_of_not_guards hs]
  simp

section
variable {slot : Slot} (hact : m.active i = a :: rest) (hslot : a.stage.slot? = some slot)
  (hslot' : ∀ s, stage.slot? = some s → s = slot)
include hact hslot hslot'

theorem weightAt_put_of_slot? (l : Local) (s : Slot) (j : Nat) :
    weightAt s ((m.put i l (a.next stage ++ rest)).active j) = weightAt s (m.active j) +
      if j = i ∧ s = slot then stage.weight - a.stage.weight else 0 := by
  rw [weightAt_put hact, Stage.weightAt_eq hslot',
    Stage.weightAt_eq fun s hs => Option.some.inj (hs.symm.trans hslot)]
  by_cases hj : j = i <;> by_cases hs : s = slot <;> simp [hj, hs]

/-- A guard that one call at most holds is held by one at most if a call goes on that holds it, or that
takes it when none does. -/
theorem weightAt_put_le_one (hsingle : ∀ j s, weightAt s (m.active j) ≤ 1)
    (hfree : a.stage.guards = true ∨ weightAt slot (m.active i) ≤ 0) (l : Local) (s : Slot)
    (j : Nat) : weightAt s ((m.put i l (a.next stage ++ rest)).active j) ≤ 1 := by
  rw [weightAt_put_of_slot? hact hslot hslot']
  split
  · rename_i hji
    rw [hji.1, hji.2]
    have := hsingle i slot
    have := stage.weight_le_one
    rcases hfree with hguards | hfree
    · rw [Stage.weight_of_guards hguards]
      omega
    · have := a.stage.weight_nonneg
      omega
  · rw [Int.add_zero]
    exact hsingle j s

end

theorem pairwise_put {l : Local} {calls : List Activity} {r' : Roster}
    (h : ∀ j, (m.active j).Pairwise (Activity.Yields m.tracer.roster j))
    (hslot : ∀ j, j ≠ i → r'.slot? j = m.tracer.roster.slot? j)
    (hcalls : calls.Pairwise (Activity.Yields r' i)) (j : Nat) :
    ((m.put i l calls).active j).Pairwise (Activity.Yields r' j) := by
  simp only [put, Function.update_apply]
  split
  · rename_i hj
    rw [hj]
    exact hcalls
  · rename_i hj
    exact (h j).imp (Activity.Yields.congr (hslot j hj))

namespace Holding

theorem new (id : Nat) (s : Settings) (hasHandler : Bool) :
    (Machine.new (.new id s hasHandler)).Holding where
  slot_lt i a ha := by simp [Machine.new] at ha
  owned s c hc := by simp [Machine.new, Tracer.new, Roster.new, Roster.stack?] at hc
  single _ _ := Int.zero_le_ofNat 1
  yields _ := .nil
  held := List.nodup_nil
  held_lt := List.forall_mem_nil _
  free _ := rfl

/-- Moves that concern neither stacks nor guards nor who has them. -/
theorem congr (h : m.Holding) {m' : Machine}
    (hc : m'.tracer.roster.callStacks = m.tracer.roster.callStacks)
    (hslot : ∀ i, m'.tracer.roster.slot? i = m.tracer.roster.slot? i)
    (hs : m'.tracer.suspension = m.tracer.suspension) (ha : m'.active = m.active) :
    m'.Holding where
  slot_lt := by rw [ha, hc]; exact h.slot_lt
  owned s c hstack := by
    rw [Roster.stack?, hc] at hstack
    obtain ⟨i, howns, hg⟩ := h.owned s c hstack
    refine ⟨i, ⟨fun j hj => howns.member j ((hslot j).symm.trans hj), ?_⟩, ?_⟩
    · rw [ha]; exact howns.calls
    · rw [hs, ha]; exact hg
  single := by rw [ha]; exact h.single
  yields i := by rw [ha]; exact (h.yields i).imp (Activity.Yields.congr (hslot i))
  held := by rw [hs]; exact h.held
  held_lt := by rw [hs, hc]; exact h.held_lt
  free := by rw [hs]; exact h.free

/-- A thread can call a hook only while all its calls tell first invocations. -/
theorem tells_of_ready (h : m.Holding) (hr : m.ready i = true)
    (hgoing : ∀ a ∈ m.active i, a.stage.isOver = false) :
    ∀ a ∈ m.active i, a.stage.tells = true := by
  have hyields := h.yields i
  rw [ready] at hr
  generalize m.active i = calls at hr hgoing hyields
  cases calls with
  | nil => exact List.forall_mem_nil _
  | cons a rest =>
    refine List.forall_mem_cons.mpr ⟨?_, fun b hb => (List.rel_of_pairwise_cons hyields hb).1⟩
    exact Stage.tells_of_paused (by simpa using hr) (hgoing a List.mem_cons_self)

theorem push (h : m.Holding) (hr : m.ready i = true)
    (hgoing : ∀ a ∈ m.active i, a.stage.isOver = false) (c : Call) (counted : Bool) :
    (m.push i ⟨c, counted, .called⟩).Holding := by
  have hmem : ∀ j b, b ∈ (m.push i ⟨c, counted, .called⟩).active j → ∀ s,
      b.stage.slot? = some s → b ∈ m.active j := by
    intro j b hb s hs
    simp only [Machine.push, Function.update_apply] at hb
    split at hb
    · rename_i hj
      rcases List.mem_cons.mp hb with rfl | hb
      · cases hs
      · exact hj ▸ hb
    · exact hb
  have hweight : ∀ j s, weightAt s ((m.push i ⟨c, counted, .called⟩).active j) =
      weightAt s (m.active j) := by
    intro j s
    by_cases hj : j = i
    · subst hj
      simp [Machine.push, Stage.weightAt, Stage.slot?]
    · simp [Machine.push, hj]
  refine ⟨fun j b hb s hs => h.slot_lt j b (hmem j b hb s hs) s hs, fun s c' hc => ?_,
    fun j s => ?_, fun j => ?_, h.held, h.held_lt, h.free⟩
  · obtain ⟨j, howns, hg⟩ := h.owned s c' hc
    refine ⟨j, ⟨howns.member, fun k b hb hs => howns.calls k b (hmem k b hb s hs) hs⟩, ?_⟩
    rw [hweight]
    exact hg
  · rw [hweight]
    exact h.single j s
  · simp only [Machine.push, Function.update_apply]
    split
    · rename_i hj
      exact List.pairwise_cons.mpr ⟨fun b hb =>
        Activity.yields_of_called rfl (h.tells_of_ready hr hgoing b hb), hj ▸ h.yields i⟩
    · exact h.yields j

section put

theorem settle {l : Local} {calls : List Activity} (h : (m.put i l calls).Holding) (a : Activity)
    (stage : Stage) : (m.put i ⟨a.settle l.tracer stage, l.memory⟩ calls).Holding :=
  h.congr (by simp [put]) (by simp [put]) (by simp [put]) rfl

theorem put_find (h : m.Holding) (hact : m.active i = a :: rest) (memory : Memory)
    (hlt : ∀ s, m.tracer.roster.slot? i = some s → s < m.tracer.roster.callStacks.size)
    (hs : a.stage.isEarly = true) (hs' : stage.isEarly = true ∨ stage.isOver = true)
    (hslot : ∀ s, stage.slot? = some s →
      a.stage.slot? = some s ∨ m.tracer.roster.slot? i = some s) :
    (m.put i ⟨m.tracer, memory⟩ (a.next stage ++ rest)).Holding := by
  have ha : a ∈ m.active i := by rw [hact]; exact List.mem_cons_self
  have hweight (s : Slot) (j : Nat) := weightAt_put_of_not_guards hact (Stage.guards_of_isEarly hs)
    (hs'.elim Stage.guards_of_isEarly Stage.guards_of_isOver) ⟨m.tracer, memory⟩ s j
  refine ⟨fun j b hb s hbs => ?_, fun s c hc => ?_, fun j s => ?_, fun j => ?_, h.held, h.held_lt,
    h.free⟩
  · rcases mem_put_next hact hb with ⟨rfl, rfl, -⟩ | hb
    · exact (hslot s hbs).elim (h.slot_lt j a ha s) (hlt s)
    · exact h.slot_lt j b hb s hbs
  · obtain ⟨j, howns, hg⟩ := h.owned s c hc
    refine ⟨j, ⟨howns.member, fun k b hb hbs => ?_⟩, ?_⟩
    · rcases mem_put_next hact hb with ⟨rfl, rfl, -⟩ | hb
      · exact (hslot s hbs).elim (howns.calls k a ha) (howns.member k)
      · exact howns.calls k b hb hbs
    · rw [hweight]
      exact hg
  · rw [hweight]
    exact h.single j s
  · refine pairwise_put h.yields (fun _ _ => rfl) ?_ j
    refine Activity.pairwise_next (hact ▸ h.yields i) fun b hb hyields hover =>
      ⟨hyields.1, fun s hbs hi => ?_⟩
    obtain ⟨-, hsame⟩ := hyields.2 s hbs hi
    refine ⟨hs'.resolve_right (by simp [hover]), fun s' hs' => ?_⟩
    exact (hslot s' hs').elim (hsame s') fun hi' => Option.some.inj (hi'.symm.trans hi)

theorem put_enlist (h : m.Holding) {who : OsThread} {q : Quota} {memory : Memory}
    (hact : m.active who.id = a :: rest)
    (hlt : ∀ j s, m.tracer.roster.slot? j = some s → s < m.tracer.roster.callStacks.size)
    (hnone : m.tracer.roster.slot? who.id = none)
    (hslot : stage.slot? = some m.tracer.roster.callStacks.size) (hs : stage.isEarly = true)
    (hs₀ : a.stage.guards = false) :
    (m.put who.id ⟨{ m.tracer with roster := m.tracer.roster.enlist who, quota := q }, memory⟩
      (a.next stage ++ rest)).Holding := by
  have hsize : (m.tracer.roster.enlist who).callStacks.size =
      m.tracer.roster.callStacks.size + 1 := by simp [Roster.enlist]
  have hself := Roster.slot?_enlist_self who hnone
  have hother : ∀ {j s}, (m.tracer.roster.enlist who).slot? j = some s →
      j = who.id ∧ s = m.tracer.roster.callStacks.size ∨
        j ≠ who.id ∧ m.tracer.roster.slot? j = some s := by
    intro j s hj
    by_cases hji : j = who.id
    · rw [hji, hself] at hj
      exact .inl ⟨hji, (Option.some.inj hj).symm⟩
    · exact .inr ⟨hji, (Roster.slot?_enlist_of_ne hji).symm.trans hj⟩
  have hweight (s : Slot) (j : Nat) := weightAt_put_of_not_guards hact hs₀
    (Stage.guards_of_isEarly hs)
    ⟨{ m.tracer with roster := m.tracer.roster.enlist who, quota := q }, memory⟩ s j
  refine ⟨fun j b hb s hbs => ?_, fun s c hc => ?_, fun j s => ?_, fun j => ?_, h.held,
    fun s hsh => ?_, h.free⟩
  · simp only [put, hsize]
    rcases mem_put_next hact hb with ⟨rfl, rfl, -⟩ | hb
    · cases hslot.symm.trans hbs
      exact Nat.lt_succ_self _
    · exact Nat.lt_succ_of_lt (h.slot_lt j b hb s hbs)
  · by_cases hs' : s < m.tracer.roster.callStacks.size
    · obtain ⟨j, howns, hg⟩ := h.owned s c ((Roster.stack?_enlist_of_lt hs').symm.trans hc)
      refine ⟨j, ⟨fun k hk => ?_, fun k b hb hbs => ?_⟩, ?_⟩
      · rcases hother hk with ⟨-, rfl⟩ | ⟨-, hk⟩
        · exact absurd hs' (Nat.lt_irrefl _)
        · exact howns.member k hk
      · rcases mem_put_next hact hb with ⟨rfl, rfl, -⟩ | hb
        · cases hslot.symm.trans hbs
          exact absurd hs' (Nat.lt_irrefl _)
        · exact howns.calls k b hb hbs
      · rw [hweight]
        exact hg
    · -- the stack of the newcomer
      have hlast : s < m.tracer.roster.callStacks.size + 1 := hsize ▸ Roster.lt_size_of_stack? hc
      obtain rfl : s = m.tracer.roster.callStacks.size :=
        Nat.le_antisymm (Nat.le_of_lt_succ hlast) (Nat.le_of_not_lt hs')
      have hrest : ∀ b ∈ rest, b.stage.slot? ≠ some m.tracer.roster.callStacks.size := by
        intro b hb hbs
        have hb : b ∈ m.active who.id := by rw [hact]; exact List.mem_cons_of_mem _ hb
        exact absurd (h.slot_lt who.id b hb _ hbs) (Nat.lt_irrefl _)
      refine ⟨who.id, ⟨fun k hk => ?_, fun k b hb hbs => ?_⟩, ?_⟩
      · rcases hother hk with ⟨hk, -⟩ | ⟨-, hk⟩
        · exact hk
        · exact absurd (hlt k _ hk) (Nat.lt_irrefl _)
      · rcases mem_put_next hact hb with ⟨hk, -⟩ | hb
        · exact hk
        · exact absurd (h.slot_lt k b hb _ hbs) (Nat.lt_irrefl _)
      · cases (m.tracer.roster.stack?_enlist_size who).symm.trans hc
        have hheld : m.tracer.roster.callStacks.size ∉ m.tracer.suspension.held :=
          fun hmem => Nat.lt_irrefl _ (h.held_lt _ hmem)
        rw [hweight, hact, weightAt_cons, Stage.weightAt_of_not_guards hs₀, weightAt_eq_zero hrest]
        simp only [put, Suspension.weight, hheld, CallStack.new]
        rfl
  · rw [hweight]
    exact h.single j s
  · refine pairwise_put h.yields (fun j hj => Roster.slot?_enlist_of_ne hj) ?_ j
    -- nobody tells anything with the new slot
    have hnew : ∀ b ∈ m.active who.id, ∀ s, b.stage.slot? = some s →
        (m.tracer.roster.enlist who).slot? who.id ≠ some s := by
      intro b hb s hbs hi
      cases hself.symm.trans hi
      exact Nat.lt_irrefl _ (h.slot_lt who.id b hb _ hbs)
    have hyields := (h.yields who.id).imp_of_mem (S := Activity.Yields (m.tracer.roster.enlist who)
      who.id) fun _ hb hyields => ⟨hyields.1, fun s hbs hi => absurd hi (hnew _ hb s hbs)⟩
    rw [hact] at hyields hnew
    exact Activity.pairwise_next hyields fun b hb hyields _ =>
      ⟨hyields.1, fun s hbs hi => absurd hi (hnew b (List.mem_cons_of_mem _ hb) s hbs)⟩
  · exact Nat.lt_of_lt_of_le (h.held_lt s hsh) (by simp only [put, hsize]; exact Nat.le_succ _)

/-- No call holds the guard of a stack that is not guarded. -/
theorem weightAt_le_zero (h : m.Holding) (ha : a ∈ m.active i) {slot : Slot}
    (hslot : a.stage.slot? = some slot)
    (hfree : ∀ c, m.tracer.roster.stack? slot = some c → c.guarded = false) :
    weightAt slot (m.active i) ≤ 0 := by
  have hlt := h.slot_lt i a ha slot hslot
  rcases hc : m.tracer.roster.stack? slot with _ | c
  · exact absurd (Roster.stack?_eq_none_iff.mp hc) (Nat.not_le_of_lt hlt)
  obtain ⟨j, howns, hg⟩ := h.owned slot c hc
  obtain rfl : i = j := howns.calls i a ha hslot
  have hweight := m.tracer.suspension.weight_nonneg slot
  have hfree := CallStack.guarded_eq_false_iff.mp (hfree c hc)
  omega

/-- A call that holds or takes a guard is within no telling that holds it. -/
theorem slot?_ne (h : m.Holding) (hact : m.active i = a :: rest) {slot : Slot}
    (hslot : a.stage.slot? = some slot)
    (hs : a.stage.guards = true ∨ a.stage.isEarly = true ∧
      ∀ c, m.tracer.roster.stack? slot = some c → c.guarded = false)
    (hb : b ∈ rest) {s : Slot} (hbs : b.stage.slot? = some s) :
    m.tracer.roster.slot? i ≠ some s := by
  intro hi
  have hyields := h.yields i
  rw [hact] at hyields
  obtain ⟨ht, hyields⟩ := List.rel_of_pairwise_cons hyields hb
  obtain ⟨hearly, hsame⟩ := hyields s hbs hi
  cases hsame slot hslot
  rcases hs with hs | ⟨-, hs⟩
  · rw [Stage.guards_of_isEarly hearly] at hs
    cases hs
  · have hbi : b ∈ m.active i := by rw [hact]; exact List.mem_cons_of_mem _ hb
    have hheld := one_le_weightAt hbi (Stage.guards_of_tells ht) hbs
    exact absurd (Int.le_trans hheld (h.weightAt_le_zero hbi hbs hs)) (by decide)

theorem put_rework (h : m.Holding) (hact : m.active i = a :: rest) {t' : Tracer} {slot : Slot}
    {memory : Memory} (hslot : a.stage.slot? = some slot)
    (hslot' : ∀ s, stage.slot? = some s → s = slot)
    (hr : m.tracer.Reworks slot (stage.weight - a.stage.weight) t')
    (hs : a.stage.guards = true ∨ a.stage.isEarly = true ∧
      ∀ c, m.tracer.roster.stack? slot = some c → c.guarded = false)
    (hb : t'.suspension = m.tracer.suspension) :
    (m.put i ⟨t', memory⟩ (a.next stage ++ rest)).Holding := by
  have ha : a ∈ m.active i := by rw [hact]; exact List.mem_cons_self
  have hmember : ∀ {j s}, t'.roster.slot? j = some s → m.tracer.roster.slot? j = some s :=
    fun hj => (hr.slot? _).symm.trans hj
  have hcalls : ∀ {j b s}, b ∈ (m.put i ⟨t', memory⟩ (a.next stage ++ rest)).active j →
      b.stage.slot? = some s → ∃ b ∈ m.active j, b.stage.slot? = some s := by
    intro j b s hb hbs
    rcases mem_put_next hact hb with ⟨rfl, rfl, -⟩ | hb
    · exact ⟨a, ha, by rw [hslot' s hbs, hslot]⟩
    · exact ⟨b, hb, hbs⟩
  have hfree := hs.imp_right fun hs => h.weightAt_le_zero ha hslot hs.2
  refine ⟨fun j b hbm s hbs => ?_, fun s c' hc' => ?_, fun j s =>
    weightAt_put_le_one hact hslot hslot' h.single hfree _ s j, fun j => ?_, ?_, ?_, ?_⟩
  · obtain ⟨b, hbm, hbs⟩ := hcalls hbm hbs
    simp only [put, hr.size]
    exact h.slot_lt j b hbm s hbs
  · obtain ⟨c, hc, hg'⟩ := hr.guard hc'
    obtain ⟨j, howner, hg⟩ := h.owned s c hc
    refine ⟨j, ⟨fun k hk => howner.member k (hmember hk), fun k b hbm hbs => ?_⟩, ?_⟩
    · obtain ⟨b, hbm, hbs⟩ := hcalls hbm hbs
      exact howner.calls k b hbm hbs
    · -- who owns the slot of the call is the thread that has made it
      have hji (hs : s = slot) : j = i := (howner.calls i a ha (hs ▸ hslot)).symm
      have hchange : (if j = i ∧ s = slot then stage.weight - a.stage.weight else 0) =
          if s = slot then stage.weight - a.stage.weight else 0 :=
        if_congr (and_iff_right_of_imp hji) rfl rfl
      have := m.tracer.suspension.weight_nonneg s
      have := m.tracer.suspension.weight_le_one s
      have := weightAt_nonneg s (m.active j)
      have := h.single j s
      have := stage.weight_nonneg
      have := stage.weight_le_one
      have := a.stage.weight_nonneg
      have := a.stage.weight_le_one
      have hlow : -1 ≤ (if s = slot then stage.weight - a.stage.weight else 0) := by
        split <;> omega
      have hhigh : (if s = slot then stage.weight - a.stage.weight else 0) ≤ 1 := by
        split <;> omega
      rw [hg', CallStack.toInt_guard_add (by omega) (by omega), hg,
        weightAt_put_of_slot? hact hslot hslot', hchange]
      simp only [put, hb]
      exact Int.add_assoc _ _ _
  · refine pairwise_put h.yields (fun j _ => hr.slot? j) ?_ j
    refine Activity.pairwise_next ?_ fun b hbm hyields _ =>
      ⟨hyields.1, fun s hbs hi => absurd (hmember hi) (h.slot?_ne hact hslot hs hbm hbs)⟩
    rw [← hact]
    exact (h.yields i).imp (Activity.Yields.congr (hr.slot? i))
  · simp only [put, hb]; exact h.held
  · simp only [put, hb, hr.size]; exact h.held_lt
  · simp only [put, hb]; exact h.free

end put

theorem advance (h : m.Holding) (who : OsThread)
    (hlt : ∀ j s, m.tracer.roster.slot? j = some s → s < m.tracer.roster.callStacks.size)
    (hm : m.tracer.roster.Recalls who.id (m.memory who.id))
    (hgoing : ∀ a ∈ m.active who.id, a.stage.isOver = false) : (m.advance who).Holding := by
  rcases hact : m.active who.id with _ | ⟨a, rest⟩
  · rw [advance_of_idle hact]
    exact h
  obtain ⟨l, stage, hgoes, heq⟩ := m.proceed_goes who a rest
  have hturn := hgoes.turn (hgoing a (by rw [hact]; exact List.mem_cons_self)) hm
  have hb := hgoes.suspension
  rw [Machine.advance, hact]
  dsimp only
  rw [heq]
  refine settle ?_ a stage
  generalize hst : a.stage = st at hturn
  cases hturn with
  | find hs hs' hslot _ =>
    subst hst
    exact h.put_find hact _ (hlt who.id) hs hs' hslot
  | enlist hnone _ => exact h.put_enlist hact hlt hnone rfl rfl (by rw [hst]; rfl)
  | rework hslot hslot' hr hs hs' =>
    subst hst
    exact h.put_rework hact hslot hslot' hr hs hb

/-- What suspending and resuming have in common: the guards in some slots change. -/
theorem control (h : m.Holding) {t : Tracer} {l : List Slot} {f : CallStack → CallStack}
    (hl : l.Nodup) (hr : t.roster = l.foldl (fun r s => r.modify s f) m.tracer.roster)
    (hheld : t.suspension.held.Nodup)
    (hlt : ∀ s ∈ t.suspension.held, s < m.tracer.roster.callStacks.size)
    (hfree : t.suspension.suspended = false → t.suspension.held = [])
    (hguard : ∀ s c w, 0 ≤ w → w ≤ 1 → c.guard.toInt = m.tracer.suspension.weight s + w →
      (if s ∈ l then f c else c).guard.toInt = t.suspension.weight s + w) (n : Nat) :
    { m with tracer := t, suspensions := n }.Holding := by
  have hroster := Suspension.foldl_modify_eq f l m.tracer.roster
  obtain ⟨hsize, hstack⟩ := Suspension.foldl_modify (f := f) hl m.tracer.roster
  rw [← hr] at hroster hsize hstack
  have hslot : ∀ i, t.roster.slot? i = m.tracer.roster.slot? i := fun i => by rw [hroster]; rfl
  refine ⟨?_, fun s c' hc' => ?_, h.single, fun i => ?_, hheld, ?_, hfree⟩
  · rw [hsize]; exact h.slot_lt
  · obtain ⟨c, hc, rfl⟩ := Suspension.stack?_of_foldl_modify hl (hr ▸ hc')
    obtain ⟨i, howns, hg⟩ := h.owned s c hc
    refine ⟨i, ⟨fun j hj => howns.member j ((hslot j).symm.trans hj), howns.calls⟩, ?_⟩
    exact hguard s c _ (weightAt_nonneg s _) (h.single i s) hg
  · exact (h.yields i).imp (Activity.Yields.congr (hslot i))
  · rw [hsize]; exact hlt

theorem suspend (h : m.Holding) (hnodup : m.tracer.roster.slots.Nodup)
    (hlt : ∀ s ∈ m.tracer.roster.slots, s < m.tracer.roster.callStacks.size) :
    m.suspend.Holding := by
  rcases m.suspend_cases with heq | ⟨hs, heq⟩ <;> rw [heq]
  · exact h
  refine h.control (f := CallStack.bump) hnodup (by rfl) (by exact hnodup) hlt
    (fun h => by cases h) (fun s c w _ hw hg => ?_) _
  exact Suspension.guard_bump (h.free hs) hw hg _ _

theorem resume (h : m.Holding) : m.resume.Holding := by
  rcases m.resume_cases with heq | ⟨-, heq⟩ <;> rw [heq]
  · exact h
  refine h.control (f := CallStack.release) h.held (by rfl) (by exact List.nodup_nil)
    (List.forall_mem_nil _) (fun _ => by rfl) (fun s c w hw _ hg => ?_) _
  exact Suspension.guard_release hw hg _

/-- A reset leaves all stacks as they are, but nobody has a slot any more. -/
theorem reset (h : m.Holding) (l : Settings.Limits) : (m.step (.reset l)).Holding := by
  rcases hr : m.tracer.reset l with e | t
  · rw [Machine.step, Machine.reset, hr]
    exact h
  obtain ⟨-, rfl⟩ := Tracer.reset_eq_ok hr
  simp only [Machine.step, Machine.reset, hr]
  refine ⟨h.slot_lt, fun s c hc => ?_, h.single, fun i => ?_, h.held, h.held_lt, h.free⟩
  · obtain ⟨i, howns, hg⟩ := h.owned s c hc
    exact ⟨i, ⟨fun _ hj => (by cases hj), howns.calls⟩, hg⟩
  · exact (h.yields i).imp fun hyields => ⟨hyields.1, fun _ _ hi => by cases hi⟩

theorem step (h : m.Holding) {limit : UInt32}
    (hseated : m.tracer.roster.Seated m.tracer.quota limit)
    (hm : ∀ i, m.tracer.roster.Recalls i (m.memory i))
    (hgoing : ∀ i, ∀ a ∈ m.active i, a.stage.isOver = false) (x : Move) : (m.step x).Holding := by
  have hlt : ∀ j s, m.tracer.roster.slot? j = some s → s < m.tracer.roster.callStacks.size :=
    fun j s hj => (hseated.mem_slots.mp (Roster.Seated.slot_mem hj)).2
  cases x with
  | call who c counted =>
    by_cases hr : m.ready who.id = true
    · have hnote : (m.note who.id c).Holding := by
        refine h.congr ?_ ?_ ?_ ?_ <;> simp
      rw [Machine.step, m.call_eq who c counted hr]
      refine (hnote.push (by simpa [ready] using hr) (by simpa using hgoing who.id) c
        counted).advance who ?_ ?_ fun a ha => ?_
      · simpa [Machine.push] using hlt
      · simpa [Machine.push] using hm who.id
      · simp only [Machine.push, note_active, Function.update_self] at ha
        rcases List.mem_cons.mp ha with rfl | ha
        · rfl
        · exact hgoing who.id a ha
    · rw [Machine.step, Machine.call, if_neg hr]
      exact h
  | advance who => exact h.advance who hlt (hm who.id) (hgoing who.id)
  | suspend => exact h.suspend hseated.nodup_slots fun s hs => (hseated.mem_slots.mp hs).2
  | resume => exact h.resume
  | reset l => exact h.reset l
  | elsewhere i r =>
    rw [Machine.step]
    split
    · exact h
    · exact h.congr rfl (fun _ => rfl) rfl rfl
  | drain | notify | receive | exclude | look => exact h.congr rfl (fun _ => rfl) rfl rfl

end Holding

/-- After `n` resets. -/
structure Upheld (m : Machine) (n : Nat) : Prop where
  steady : m.Steady
  seated : ∃ limit, m.tracer.roster.Seated m.tracer.quota limit
  mindful : m.Mindful n fun _ => True
  holding : m.Holding

namespace Upheld
variable {n : Nat}

theorem new (id : Nat) (s : Settings) (hasHandler : Bool) :
    (Machine.new (.new id s hasHandler)).Upheld 0 where
  steady := .new id s hasHandler
  seated := ⟨s.threadSlots, .new id s.threadSlots⟩
  mindful := .new id s hasHandler _
  holding := .new id s hasHandler

theorem step (h : m.Upheld n) (x : Move) (hn : (if m.resets x then n + 1 else n) < UInt64.size) :
    (m.step x).Upheld (if m.resets x then n + 1 else n) := by
  obtain ⟨limit, hseated⟩ := h.seated
  exact {
    steady := h.steady.step x
    seated := ⟨_, seated_step hseated x⟩
    mindful := h.mindful.step x hn (fun _ _ => id) (fun _ _ => trivial)
      fun _ _ _ _ _ _ _ _ _ _ => trivial
    holding := h.holding.step hseated (fun i => (h.mindful.minds i).recalls) h.steady.going x }

theorem run (h : m.Upheld n) (xs : List Move) (hn : n + m.resetsIn xs < UInt64.size) :
    (m.run xs).Upheld (n + m.resetsIn xs) := by
  induction xs generalizing m n with
  | nil => exact h
  | cons x xs ih =>
    rw [add_resetsIn_cons] at hn ⊢
    exact ih (h.step x (Nat.lt_of_le_of_lt (Nat.le_add_right _ _) hn)) hn

end Upheld

end Machine

end MethodTrace
