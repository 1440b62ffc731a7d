import Mathlib.Data.List.Perm.Subperm
import MethodTrace.Proofs.Course
import MethodTrace.Proofs.Seating

/-!
# Room for threads

A thread that is not registered finds a slot left if no more threads call hooks than there are slots
(`spares_of_crew`). It has found one if in the end it is registered or a slot is left
(`spares_of_not_full`): once no slot is left nobody is registered any more.
-/

namespace MethodTrace

namespace Machine
variable {m : Machine} {limit : UInt32} {i : Nat} {x : Move} {crew : List Nat}

/-- Only a thread with a call in progress is registered, and only if a slot is left. -/
theorem members_step (hx : x.isReset = false) :
    ((m.step x).tracer.roster.members = m.tracer.roster.members ∧
      (m.step x).tracer.quota = m.tracer.quota) ∨
    ∃ j s, m.active j ≠ [] ∧ m.tracer.quota.remaining ≠ 0 ∧
      (m.step x).tracer.roster.members = m.tracer.roster.members ++ [(j, s)] := by
  have hseats := m.seats_step x
  generalize m.step x = m' at hseats ⊢
  cases hseats with
  | same _ hr hq => exact .inl ⟨hr.members, hq⟩
  | @enlist who _ _ _ _ _ hact _ _ _ hq hr =>
    refine .inr ⟨who.id, m.tracer.roster.callStacks.size, by rw [hact]; simp, fun h0 => ?_, by rw [hr]; rfl⟩
    simp [Quota.take, h0] at hq
  | clear => cases hx

/-- A thread has a call in progress only if it has called a hook. -/
theorem active_step {j : Nat} (hj : (m.step x).active j ≠ []) :
    m.active j ≠ [] ∨ x.caller? = some j := by
  cases x with
  | call who c counted =>
    by_cases hr : m.ready who.id = true
    · obtain ⟨stage, hcall, -⟩ := call_eq_put hr c counted
      by_cases hi : j = who.id
      · exact .inr (by rw [hi]; rfl)
      · refine .inl ?_
        simpa [Machine.step, hcall, put, hi] using hj
    · refine .inl ?_
      simpa [Machine.step, call, hr] using hj
  | advance who =>
    refine .inl ?_
    simp only [Machine.step, advance] at hj
    rcases hact : m.active who.id with _ | ⟨a, rest⟩
    · rwa [hact] at hj
    obtain ⟨l, stage, -, hm⟩ := m.proceed_goes who a rest
    by_cases hi : j = who.id
    · rw [hi, hact]
      simp
    · simpa [hact, hm, put, hi] using hj
  | suspend => simp only [Machine.step, suspend] at hj; split at hj <;> exact .inl hj
  | resume => simp only [Machine.step, resume] at hj; split at hj <;> exact .inl hj
  | reset l => simp only [Machine.step, reset] at hj; split at hj <;> exact .inl hj
  | elsewhere i r => simp only [Machine.step] at hj; split at hj <;> exact .inl hj
  | _ => exact .inl hj

/-- The calls of a thread are its own. -/
theorem active_step_of_ne (m : Machine) {x : Move} (hi : x.mover? ≠ some i) :
    (m.step x).active i = m.active i := by
  have hput : ∀ {m' : Machine} {l : Local} {calls : List Activity} {j : Nat}, j ≠ i →
      m'.active = m.active → (m'.put j l calls).active i = m.active i := by
    intro m' l calls j hj hm'
    rw [← hm']
    exact Function.update_of_ne hj.symm ..
  cases x with
  | call who c counted =>
    have hne : who.id ≠ i := fun heq => hi (by rw [← heq]; rfl)
    by_cases hr : m.ready who.id = true
    · obtain ⟨l, stage, -, heq⟩ := call_goes c counted hr
      rw [heq]
      exact hput hne (note_active ..)
    · rw [step, Machine.call, if_neg hr]
  | advance who =>
    have hne : who.id ≠ i := fun heq => hi (by rw [← heq]; rfl)
    rcases hact : m.active who.id with _ | ⟨a, rest⟩
    · rw [step, Machine.advance, hact]
    · obtain ⟨l, stage, -, heq⟩ := advance_goes hact
      rw [heq]
      exact hput hne rfl
  | suspend => rcases m.suspend_cases with heq | ⟨-, heq⟩ <;> rw [step, heq]
  | resume => rcases m.resume_cases with heq | ⟨-, heq⟩ <;> rw [step, heq]
  | reset l => rw [step, reset]; split <;> rfl
  | elsewhere j r => rw [step]; split <;> rfl
  | _ => rfl

/-- If those have come to an end who have called hooks, no call is in progress. -/
theorem idle_run {xs : List Move} (crew : List Nat) (hcall : ∀ x ∈ xs, ∀ j ∈ x.caller?, j ∈ crew)
    (h : ∀ j, j ∉ crew → m.active j = []) (hidle : ∀ j ∈ crew, (m.run xs).active j = []) (j : Nat) :
    (m.run xs).active j = [] := by
  by_cases hj : j ∈ crew
  · exact hidle j hj
  clear hidle
  induction xs generalizing m with
  | nil => exact h j hj
  | cons x xs ih =>
    obtain ⟨hx, hxs⟩ := List.forall_mem_cons.mp hcall
    refine ih hxs fun i hi => ?_
    by_contra hactive
    rcases active_step hactive with hold | hcaller
    · exact hold (h i hi)
    · exact hi (hx i hcaller)

/-! ### A crew no larger than the roster -/

/-- Only threads of the crew call hooks. -/
structure Manned (crew : List Nat) (m : Machine) : Prop where
  active : ∀ j, m.active j ≠ [] → j ∈ crew
  members : ∀ p ∈ m.tracer.roster.members, p.1 ∈ crew

namespace Manned

theorem new (id : Nat) (s : Settings) (hasHandler : Bool) (crew : List Nat) :
    Manned crew (.new (.new id s hasHandler)) :=
  ⟨by simp [Machine.new], by simp [Machine.new, Tracer.new, Roster.new]⟩

theorem step (h : Manned crew m) (hx : x.isReset = false)
    (hcall : ∀ j ∈ x.caller?, j ∈ crew) : Manned crew (m.step x) where
  active j hj := (active_step hj).elim (h.active j) fun hc => hcall j hc
  members p hp := by
    rcases members_step hx with ⟨heq, -⟩ | ⟨j, s, hj, -, heq⟩
    · exact h.members p (heq ▸ hp)
    · rw [heq] at hp
      rcases List.mem_append.mp hp with hp | hp
      · exact h.members p hp
      · rw [List.mem_singleton.mp hp]
        exact h.active j hj

theorem run (h : Manned crew m) {xs : List Move} (hx : ∀ x ∈ xs, x.isReset = false)
    (hcall : ∀ x ∈ xs, ∀ j ∈ x.caller?, j ∈ crew) : Manned crew (m.run xs) := by
  induction xs generalizing m with
  | nil => exact h
  | cons x xs ih =>
    obtain ⟨hx, hxs⟩ := List.forall_mem_cons.mp hx
    obtain ⟨hcall, hcalls⟩ := List.forall_mem_cons.mp hcall
    exact ih (h.step hx hcall) hxs hcalls

/-- The threads that are registered and the one that is not are all of the crew. -/
theorem room (h : Manned crew m) (ho : m.Orderly limit) (hcrew : crew.length ≤ limit.toNat)
    (hi : i ∈ crew) (hnone : m.tracer.roster.slot? i = none) : m.tracer.quota.remaining ≠ 0 := by
  intro h0
  have hnot := Roster.slot?_eq_none_iff.mp hnone
  have hnodup := List.nodup_cons.mpr ⟨hnot, ho.sound.distinct⟩
  have hsub : i :: m.tracer.roster.members.map Prod.fst ⊆ crew := by
    rintro j hj
    rcases List.mem_cons.mp hj with rfl | hj
    · exact hi
    · obtain ⟨p, hp, rfl⟩ := List.mem_map.mp hj
      exact h.members p hp
  have hlength := (List.subperm_of_subset hnodup hsub).length_le
  have hsize : m.tracer.roster.members.length = m.tracer.roster.callStacks.size := ho.sound.size_eq
  have hroom := ho.sound.room
  simp only [List.length_cons, List.length_map, hsize, h0, UInt32.toNat_zero] at hlength hroom
  omega

end Manned

/-- A run does not shut a thread out that is one of a crew no larger than the roster. -/
theorem spares_of_crew (ho : m.Orderly limit) (hm : Manned crew m)
    (hcrew : crew.length ≤ limit.toNat) (hi : i ∈ crew) {xs : List Move}
    (hx : ∀ x ∈ xs, x.isReset = false) (hcall : ∀ x ∈ xs, ∀ j ∈ x.caller?, j ∈ crew)
    (hexclude : ∀ x ∈ xs, x.excluded? ≠ some i) (hs : Along (Settled i) m xs) :
    Along (fun m x => m.Spares i x) m xs := by
  induction xs generalizing m with
  | nil => trivial
  | cons x xs ih =>
    have hx0 := hx x List.mem_cons_self
    refine ⟨⟨hs.1, hexclude x List.mem_cons_self, hm.room ho hcrew hi⟩, ?_⟩
    exact ih (ho.step x hx0) (hm.step hx0 (hcall x List.mem_cons_self))
      (fun y hy => hx y (List.mem_cons_of_mem _ hy)) (fun y hy => hcall y (List.mem_cons_of_mem _ hy))
      (fun y hy => hexclude y (List.mem_cons_of_mem _ hy)) hs.2

/-! ### A thread that is registered in the end -/

/-- No slot is left for a thread that is not registered. -/
structure Full (m : Machine) (i : Nat) : Prop where
  stranger : m.tracer.roster.slot? i = none
  full : m.tracer.quota.remaining = 0

theorem Full.step (h : m.Full i) (hx : x.isReset = false) : (m.step x).Full i := by
  rcases members_step hx with ⟨hmembers, hquota⟩ | ⟨j, s, -, hroom, -⟩
  · exact ⟨by rw [Roster.slot?, hmembers]; exact h.stranger, by rw [hquota]; exact h.full⟩
  · exact absurd h.full hroom

theorem Full.run (h : m.Full i) {xs : List Move} (hx : ∀ x ∈ xs, x.isReset = false) :
    (m.run xs).Full i := by
  induction xs generalizing m with
  | nil => exact h
  | cons x xs ih =>
    exact ih (h.step (hx x List.mem_cons_self)) fun y hy => hx y (List.mem_cons_of_mem _ hy)

/-- A run shuts a thread out only if no slot is left for it in the end. -/
theorem spares_of_not_full (ho : m.Orderly limit) {xs : List Move} (hfull : ¬(m.run xs).Full i)
    (hx : ∀ x ∈ xs, x.isReset = false) (hexclude : ∀ x ∈ xs, x.excluded? ≠ some i)
    (hs : Along (Settled i) m xs) : Along (fun m x => m.Spares i x) m xs := by
  induction xs generalizing m with
  | nil => trivial
  | cons x xs ih =>
    have hx0 := hx x List.mem_cons_self
    refine ⟨⟨hs.1, hexclude x List.mem_cons_self, fun hnone h0 => ?_⟩, ?_⟩
    · have hfull' : m.Full i := ⟨hnone, h0⟩
      exact hfull (hfull'.run hx)
    · exact ih (ho.step x hx0) hfull (fun y hy => hx y (List.mem_cons_of_mem _ hy))
        (fun y hy => hexclude y (List.mem_cons_of_mem _ hy)) hs.2

/-- A run has not shut a thread out that is registered in the end. -/
theorem spares_of_registered (ho : m.Orderly limit) {xs : List Move} {slot : Slot}
    (hslot : (m.run xs).tracer.roster.slot? i = some slot) (hx : ∀ x ∈ xs, x.isReset = false)
    (hexclude : ∀ x ∈ xs, x.excluded? ≠ some i) (hs : Along (Settled i) m xs) :
    Along (fun m x => m.Spares i x) m xs := by
  refine spares_of_not_full ho (fun hfull => ?_) hx hexclude hs
  have hstranger := hfull.stranger
  rw [hslot] at hstranger
  cases hstranger

end Machine

end MethodTrace
