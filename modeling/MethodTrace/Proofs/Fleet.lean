import MethodTrace.Proofs.Forgetting

/-!
# Tracers that the same threads use

A thread remembers one lookup, whichever tracer made it: what it does in one tracer makes it forget
what it knew of another. So a fleet of tracers has one memory for every thread. Whether the threads
use it makes no difference to anything that is seen of any of the tracers (`memory_is_transparent`).
-/

namespace MethodTrace

namespace Machine
variable {m : Machine} {x : Move}

/-- What a move makes a thread remember is about the tracer's own roster. -/
theorem memory_step (m : Machine) {x : Move} (hx : ∀ i r, x ≠ .elsewhere i r) (i : Nat) :
    (m.step x).memory i = m.memory i ∨
      ∃ c, (m.step x).memory i = some c ∧ c.roster = m.tracer.roster.id := by
  have hupdate : ∀ {m' : Machine} {j : Nat} {memory : Memory},
      m'.memory = Function.update m.memory j memory →
      (memory = m.memory j ∨ ∃ st, memory = m.tracer.roster.memoryOf st) →
      m'.memory i = m.memory i ∨ ∃ c, m'.memory i = some c ∧ c.roster = m.tracer.roster.id := by
    intro m' j memory hm' hmemory
    rw [hm', Function.update_apply]
    split
    · rename_i hi
      subst hi
      rcases hmemory with rfl | ⟨st, rfl⟩
      · exact .inl rfl
      · exact .inr ⟨_, rfl, rfl⟩
    · exact .inl rfl
  cases x with
  | call who c counted =>
    by_cases hr : m.ready who.id = true
    · obtain ⟨l, stage, hgoes, heq⟩ := call_goes c counted hr
      exact hupdate (by rw [heq, put, note_memory]) hgoes.memory_of
    · rw [step, call, if_neg hr]
      exact .inl rfl
  | advance who =>
    rcases hact : m.active who.id with _ | ⟨a, rest⟩
    · rw [step, advance, hact]
      exact .inl rfl
    · obtain ⟨l, stage, hgoes, heq⟩ := advance_goes hact
      exact hupdate (by rw [heq, put]) hgoes.memory_of
  | suspend => rcases m.suspend_cases with heq | ⟨-, heq⟩ <;> rw [step, heq] <;> exact .inl rfl
  | resume => rcases m.resume_cases with heq | ⟨-, heq⟩ <;> rw [step, heq] <;> exact .inl rfl
  | reset l => rw [step, reset]; split <;> exact .inl rfl
  | exclude j => exact hupdate rfl (.inr ⟨_, rfl⟩)
  | look j =>
    refine hupdate rfl ?_
    rcases hc : m.tracer.roster.consult j (m.memory j) with ⟨_ | _ | _, memory⟩ <;>
      simp only [Tracer.look, hc] <;> exact Roster.consult_memory hc
  | elsewhere j r => exact absurd rfl (hx j r)
  | drain | notify | receive => exact .inl rfl

theorem roster_id_step (m : Machine) (x : Move) :
    (m.step x).tracer.roster.id = m.tracer.roster.id := by
  have hseats := m.seats_step x
  generalize m.step x = m' at hseats
  cases hseats with
  | same _ hr _ => exact hr.id
  | enlist _ _ _ _ _ hr _ _ => rw [hr]; rfl
  | clear _ hr _ => rw [hr]; rfl

end Machine

structure Fleet where
  /-- Whether threads use what they remember; if not, every lookup is made. -/
  remembers : Bool
  /-- What every thread remembers of its last lookup in any of the rosters. -/
  memory : Nat → Memory
  machine : Nat → Machine

namespace Fleet

/-- Tracers with numbers of their own. -/
def new (remembers : Bool) (settings : Nat → Settings) (hasHandler : Nat → Bool) : Fleet where
  remembers := remembers
  memory _ := none
  machine k := .new (.new k (settings k) (hasHandler k))

/-- A tracer as the threads meet it. -/
def view (f : Fleet) (k : Nat) : Machine :=
  { f.machine k with memory := if f.remembers then f.memory else fun _ => none }

/-- A move in one of the tracers. Whatever happens elsewhere happens in another one. -/
def step (f : Fleet) : Nat × Move → Fleet
  | (_, .elsewhere ..) => f
  | (k, x) =>
    { f with
      memory := ((f.view k).step x).memory
      machine := Function.update f.machine k ((f.view k).step x) }

def run (f : Fleet) (xs : List (Nat × Move)) : Fleet := xs.foldl step f

def outcomes (f : Fleet) : List (Nat × Move) → List Outcome
  | [] => []
  | x :: xs => (f.view x.1).outcome x.2 :: (f.step x).outcomes xs

/-- Nobody is excluded from a tracer that is registered there. -/
def Spares (f : Fleet) : List (Nat × Move) → Prop
  | [] => True
  | x :: xs => (f.view x.1).Spared x.2 ∧ (f.step x).Spares xs

instance decidableSpares : (f : Fleet) → (xs : List (Nat × Move)) → Decidable (f.Spares xs)
  | _, [] => isTrue trivial
  | f, x :: xs =>
    have := decidableSpares (f.step x) xs
    inferInstanceAs (Decidable ((f.view x.1).Spared x.2 ∧ (f.step x).Spares xs))

/-- How often a move resets tracer `k`. -/
def resets (f : Fleet) (x : Nat × Move) (k : Nat) : Nat :=
  if x.1 = k ∧ (f.view k).resets x.2 then 1 else 0

def resetsIn (f : Fleet) (k : Nat) : List (Nat × Move) → Nat
  | [] => 0
  | x :: xs => f.resets x k + (f.step x).resetsIn k xs

theorem resetsIn_le_length (f : Fleet) (k : Nat) (xs : List (Nat × Move)) :
    f.resetsIn k xs ≤ xs.length := by
  induction xs generalizing f with
  | nil => exact Nat.le_refl _
  | cons x xs ih =>
    have := ih (f.step x)
    rw [resetsIn, List.length_cons, resets]
    split <;> omega

variable {f g : Fleet} {n : Nat → Nat}

theorem step_eq (f : Fleet) (k : Nat) {x : Move} (hx : ∀ i r, x ≠ .elsewhere i r) :
    f.step (k, x) = { f with
      memory := ((f.view k).step x).memory
      machine := Function.update f.machine k ((f.view k).step x) } := by
  cases x with
  | elsewhere i r => exact absurd rfl (hx i r)
  | _ => rfl

theorem step_elsewhere (f : Fleet) (k i : Nat) (r : Recollection) :
    f.step (k, .elsewhere i r) = f := rfl

theorem view_eq (hf : f.remembers = true) (k : Nat) :
    f.view k = { f.machine k with memory := f.memory } := by
  rw [view, hf]
  rfl

/-- No tracer changes its number. -/
theorem roster_id_step (h : ∀ j, (f.machine j).tracer.roster.id = j) (x : Nat × Move) (j : Nat) :
    ((f.step x).machine j).tracer.roster.id = j := by
  obtain ⟨k, x⟩ := x
  by_cases hx : ∃ i r, x = .elsewhere i r
  · obtain ⟨i, r, rfl⟩ := hx
    exact h j
  · rw [step_eq f k fun i r heq => hx ⟨i, r, heq⟩]
    by_cases hj : j = k
    · subst hj
      simp only [Function.update_self]
      exact ((f.view j).roster_id_step x).trans (h j)
    · simp only [Function.update_of_ne hj]
      exact h j

theorem remembers_step (f : Fleet) (x : Nat × Move) : (f.step x).remembers = f.remembers := by
  obtain ⟨k, x⟩ := x
  cases x <;> rfl

theorem run_append (f : Fleet) (xs ys : List (Nat × Move)) : f.run (xs ++ ys) = (f.run xs).run ys :=
  List.foldl_append ..

theorem ids_run (h : ∀ j, (f.machine j).tracer.roster.id = j) (xs : List (Nat × Move)) :
    ∀ j, ((f.run xs).machine j).tracer.roster.id = j := by
  induction xs generalizing f with
  | nil => exact h
  | cons x xs ih => exact ih (roster_id_step h x)

theorem remembers_run (f : Fleet) (xs : List (Nat × Move)) :
    (f.run xs).remembers = f.remembers := by
  induction xs generalizing f with
  | nil => rfl
  | cons x xs ih => exact (ih (f.step x)).trans (f.remembers_step x)

/-- Two fleets that differ in memory alone, of which `g` makes no use. -/
structure Alike (f g : Fleet) (n : Nat → Nat) : Prop where
  remembers : f.remembers = true
  forgets : g.remembers = false
  machine : ∀ k, (f.machine k).forget = (g.machine k).forget
  roster_id : ∀ k, (f.machine k).tracer.roster.id = k
  aware : ∀ k, (f.view k).Aware (n k)

namespace Alike

theorem new (settings : Nat → Settings) (hasHandler : Nat → Bool) :
    Alike (.new true settings hasHandler) (.new false settings hasHandler) fun _ => 0 where
  remembers := rfl
  forgets := rfl
  machine _ := rfl
  roster_id _ := rfl
  aware k := .new k (settings k) (hasHandler k)

theorem view_forget (h : Alike f g n) (k : Nat) : (f.view k).forget = g.view k := by
  have hview : g.view k = (g.machine k).forget := by rw [view, h.forgets]; rfl
  rw [hview, ← h.machine k]
  rfl

/-- What happens in one tracer does not mislead a thread about another. -/
theorem aware_of_ne (h : Alike f g n) {j k : Nat} {x : Move} (hx : ∀ i r, x ≠ .elsewhere i r)
    (hj : j ≠ k) : { f.machine j with memory := ((f.view k).step x).memory }.Aware (n j) := by
  refine Machine.Mindful.distract (m := f.view j) (h.aware j) fun i => ?_
  rcases (f.view k).memory_step hx i with heq | ⟨c, heq, hc⟩
  · exact .inl heq
  · refine .inr ⟨c, heq, ?_⟩
    rw [hc, show (f.view k).tracer.roster.id = k from h.roster_id k,
      show (f.view j).tracer.roster.id = j from h.roster_id j]
    exact hj.symm

theorem step (h : Alike f g n) {x : Nat × Move} (hx : (f.view x.1).Spared x.2)
    (hn : ∀ k, n k + f.resets x k < UInt64.size) :
    Alike (f.step x) (g.step x) fun k => n k + f.resets x k := by
  obtain ⟨k, x⟩ := x
  by_cases hm : ∃ i r, x = .elsewhere i r
  · obtain ⟨i, r, rfl⟩ := hm
    have hcount : (fun j => n j + f.resets (k, .elsewhere i r) j) = n :=
      funext fun j => by simp [resets, Machine.resets]
    rw [hcount]
    exact h
  · have hm : ∀ i r, x ≠ .elsewhere i r := fun i r heq => hm ⟨i, r, heq⟩
    refine ⟨(f.remembers_step _).trans h.remembers, (g.remembers_step _).trans h.forgets,
      fun j => ?_, roster_id_step h.roster_id _, fun j => ?_⟩
    · rw [step_eq f k hm, step_eq g k hm]
      by_cases hj : j = k
      · subst hj
        simp only [Function.update_self]
        rw [Machine.step_forget (h.aware j), h.view_forget]
      · simp only [Function.update_of_ne hj]
        exact h.machine j
    · by_cases hj : j = k
      · subst hj
        have hcount : n j + f.resets (j, x) j = if (f.view j).resets x then n j + 1 else n j := by
          simp only [resets, true_and]
          split <;> rfl
        have hview : (f.step (j, x)).view j = (f.view j).step x := by
          simp [step_eq f j hm, view, h.remembers]
        have hlt := hn j
        rw [hcount] at hlt ⊢
        rw [hview]
        exact (h.aware j).step hx hlt
      · have hview : (f.step (k, x)).view j =
            { f.machine j with memory := ((f.view k).step x).memory } := by
          simp [step_eq f k hm, view, h.remembers, hj]
        have hcount : f.resets (k, x) j = 0 := if_neg fun h => hj h.1.symm
        rw [hcount, hview]
        exact h.aware_of_ne hm hj

theorem outcomes (h : Alike f g n) {xs : List (Nat × Move)} (hx : f.Spares xs)
    (hn : ∀ k, n k + f.resetsIn k xs < UInt64.size) : f.outcomes xs = g.outcomes xs ∧
      ∃ n, Alike (f.run xs) (g.run xs) n := by
  induction xs generalizing f g n with
  | nil => exact ⟨rfl, n, h⟩
  | cons x xs ih =>
    obtain ⟨hspared, hspares⟩ := hx
    simp only [resetsIn, ← Nat.add_assoc] at hn
    have hstep := h.step hspared fun k => Nat.lt_of_le_of_lt (Nat.le_add_right _ _) (hn k)
    obtain ⟨houtcomes, hrun⟩ := ih hstep hspares hn
    refine ⟨?_, hrun⟩
    simp only [Fleet.outcomes, houtcomes, ← h.view_forget x.1,
      ← Machine.outcome_forget (h.aware x.1)]

end Alike

end Fleet

/-- Whether threads use what they remember or look themselves up every time: every move has the same
outcome, and every tracer comes to the same state. This needs that nobody is excluded from a tracer
where it is registered, and that no roster's generations come back. -/
theorem memory_is_transparent (settings : Nat → Settings) (hasHandler : Nat → Bool)
    (xs : List (Nat × Move)) (hspares : (Fleet.new true settings hasHandler).Spares xs)
    (hresets : ∀ k, (Fleet.new true settings hasHandler).resetsIn k xs < UInt64.size) :
    (Fleet.new true settings hasHandler).outcomes xs =
        (Fleet.new false settings hasHandler).outcomes xs ∧
      ∀ k, (((Fleet.new true settings hasHandler).run xs).machine k).tracer =
        (((Fleet.new false settings hasHandler).run xs).machine k).tracer := by
  obtain ⟨houtcomes, n, halike⟩ := (Fleet.Alike.new settings hasHandler).outcomes hspares
    fun k => by rw [Nat.zero_add]; exact hresets k
  exact ⟨houtcomes, fun k => (congrArg Machine.tracer (halike.machine k) :)⟩

/-- Tracer 0 has one slot, which thread 1 gets. Thread 0 is refused, forgets it as it looks into
tracer 1, and is refused again; after a reset it is registered. -/
theorem memory_is_transparent_evicted :
    let settings : Nat → Settings := fun k => if k = 0 then { Settings.default with threadSlots := 1 }
      else .default
    let f := Fleet.new true settings fun _ => false
    let g := Fleet.new false settings fun _ => false
    let enters (i : Nat) : List (Nat × Move) := (0, .call ⟨i, none⟩ ⟨.rootEntry, ⟨1⟩, none⟩ false) ::
      List.replicate 5 (0, .advance ⟨i, none⟩)
    let xs : List (Nat × Move) := enters 1 ++ enters 0 ++ [(1, .look 0)] ++ enters 0 ++
      [(1, .exclude 0), (0, .suspend), (0, .reset ⟨1, 8, 4⟩), (0, .resume)] ++ enters 0
    f.Spares xs ∧ (∀ k, f.resetsIn k xs < UInt64.size) ∧
      [5, 7, 14, 28].filterMap (fun n => (f.outcomes xs)[n]?) =
        [.returned (.ok ()), .returned (.error .admissionDenied),
          .returned (.error .admissionDenied), .returned (.ok ())] ∧
      f.outcomes xs = g.outcomes xs ∧
      ∀ k, ((f.run xs).machine k).tracer = ((g.run xs).machine k).tracer := by
  intro settings f g enters xs
  have hspares : f.Spares xs := by decide +kernel
  have hresets : ∀ k, f.resetsIn k xs < UInt64.size := fun k =>
    Nat.lt_of_le_of_lt (f.resetsIn_le_length k xs) (by decide +kernel)
  exact ⟨hspares, hresets, by decide +kernel, memory_is_transparent settings _ xs hspares hresets⟩

end MethodTrace
