import MethodTrace.Proofs.Fleet
import MethodTrace.Proofs.Reentry
import MethodTrace.Proofs.Room

/-!
# Threads that are kept out

A thread that is excluded from a tracer is never registered there any more. If it is registered
already, only its memory keeps it out: the denial that it remembers (`Roster.Bans`). So it traces on
as soon as it looks itself up in another tracer (`excluded_thread_traces_on`). Unless it does so while
it is registered, all hooks that it calls since its exclusion come to nothing, also across resets
(`excluded_threads_are_inert`). Hooks that have found its stack before go on to their end.
-/

namespace MethodTrace

/-! ### Lookups -/

namespace Roster
variable {r r' : Roster} {i : Nat} {memory memory' : Memory} {st : Standing}

/-- Thread `i` is excluded. What it remembers of this roster is a denial, and if it is registered it
has been denied in the present generation. -/
structure Bans (r : Roster) (i : Nat) (memory : Memory) : Prop where
  excluded : i ∈ r.excluded
  denied : ∀ c, memory = some c → c.roster = r.id →
    c.standing = .denied ∧ (r.slot? i = none ∨ c.generation = r.generation)

/-- A thread that is registered remembers nothing of other rosters. -/
def Heeded (r : Roster) (i : Nat) (memory : Memory) : Prop :=
  r.slot? i = none ∨ memory.map Recollection.roster = some r.id

instance : Decidable (r.Heeded i memory) := inferInstanceAs (Decidable (_ ∨ _))

namespace Bans

theorem memoryOf_denied (h : i ∈ r.excluded) : r.Bans i (r.memoryOf .denied) where
  excluded := h
  denied c hc _ := by cases hc; exact ⟨rfl, .inr rfl⟩

theorem exclude (r : Roster) (i : Nat) : (r.exclude i).1.Bans i (r.exclude i).2 := by
  refine memoryOf_denied (r := (r.exclude i).1) ?_
  unfold Roster.exclude
  dsimp only
  split <;> simp_all

/-- The thread keeps its slot or loses it. -/
theorem congr (h : r.Bans i memory) (hid : r'.id = r.id) (he : i ∈ r'.excluded)
    (hslot : r'.slot? i = none ∨
      r'.slot? i = r.slot? i ∧ r'.generation = r.generation) : r'.Bans i memory where
  excluded := he
  denied c hc hr := by
    obtain ⟨hst, hg⟩ := h.denied c hc (hr.trans hid)
    refine ⟨hst, ?_⟩
    rcases hslot with hslot | ⟨hslot, hgen⟩
    · exact .inl hslot
    · rw [hslot, hgen]
      exact hg

/-- A thread looks into another roster. -/
theorem distract (h : r.Bans i memory) {c : Recollection} (hc : c.roster ≠ r.id) :
    r.Bans i (some c) where
  excluded := h.excluded
  denied c' hc' hr := by cases hc'; exact absurd hr hc

theorem lookup (h : r.Bans i memory) (hslot : r.slot? i = none) : r.lookup i = .denied := by
  simp only [Roster.lookup, show r.members.lookup i = none from hslot, h.excluded, ↓reduceIte]

/-- The thread is denied. -/
theorem consult (h : r.Bans i memory) (hh : r.Heeded i memory)
    (hc : r.consult i memory = (st, memory')) :
    st = .denied ∧ (memory' = memory ∨ memory' = r.memoryOf .denied) := by
  unfold Roster.consult at hc
  split at hc
  · rename_i st' hst
    cases hc
    unfold recollect at hst
    split at hst
    · rename_i c
      split at hst
      · rename_i hcur
        cases hst
        exact ⟨(h.denied c rfl hcur.1).1, .inl rfl⟩
      · cases hst
    · cases hst
  · rename_i hnone
    have hslot : r.slot? i = none := by
      rcases hh with hslot | hmemory
      · exact hslot
      · obtain ⟨c, heq, hr⟩ := Option.map_eq_some_iff.mp hmemory
        refine (h.denied c heq hr).2.resolve_right fun hg => ?_
        rw [heq, recollect, if_pos ⟨hr, hg⟩] at hnone
        cases hnone
    cases hc
    rw [h.lookup hslot]
    exact ⟨rfl, .inr rfl⟩

end Bans

end Roster

/-! ### Hooks -/

/-- A call that has not found the stack of its thread yet. -/
def Stage.isOutside : Stage → Bool
  | .called | .running _ => true
  | _ => false

namespace Call.Goes
variable {c : Call} {who : OsThread} {l l' : Local} {stage stage' : Stage}

theorem memory_of_bans (h : c.Goes who l stage l' stage')
    (hb : l.tracer.roster.Bans who.id l.memory) (hh : l.tracer.roster.Heeded who.id l.memory) :
    l'.memory = l.memory ∨ l'.memory = l.tracer.roster.memoryOf .denied := by
  cases h with
  | find hc | stranger hc | register hc | refuse hc => cases (hb.consult hh hc).1
  | denied hc => exact (hb.consult hh hc).2
  | _ => exact .inl rfl

/-- A call of a thread that is kept out does not get to a stack. -/
theorem outside (h : c.Goes who l stage l' stage') (hb : l.tracer.roster.Bans who.id l.memory)
    (hh : l.tracer.roster.Heeded who.id l.memory) (hs : stage.isOutside = true) :
    l'.tracer = l.tracer ∧ (stage'.isOutside = true ∨ stage'.isOver = true) ∧
      ∀ q, stage' ≠ .returned (.error (.queue q)) := by
  cases h with
  | suspended => exact ⟨rfl, .inr rfl, fun q hq => by cases hq⟩
  | start => exact ⟨rfl, .inl rfl, fun q hq => by cases hq⟩
  | find hc | stranger hc | register hc | refuse hc => cases (hb.consult hh hc).1
  | denied =>
    refine ⟨rfl, .inr rfl, fun q hq => ?_⟩
    split at hq <;> cases hq
  | _ => cases hs

end Call.Goes

namespace Machine
variable {m : Machine} {x : Move} {i n : Nat}

/-- Of the calls of thread `i` all but the `n` outermost have not found its stack. -/
def KeptOut (m : Machine) (i n : Nat) : Prop :=
  ∃ above below, m.active i = above ++ below ∧ below.length = n ∧
    ∀ a ∈ above, a.stage.isOutside = true

theorem keptOut_self (m : Machine) (i : Nat) : m.KeptOut i (m.active i).length :=
  ⟨[], m.active i, rfl, rfl, List.forall_mem_nil _⟩

theorem memory_step_of_bans (hb : m.tracer.roster.Bans i (m.memory i))
    (hh : m.tracer.roster.Heeded i (m.memory i)) (hx : ∀ j r, x ≠ .elsewhere j r) :
    (m.step x).memory i = m.memory i ∨
      (m.step x).memory i = m.tracer.roster.memoryOf .denied := by
  have hupdate : ∀ {m' : Machine} {j : Nat} {memory : Memory},
      m'.memory = Function.update m.memory j memory →
      (j = i → memory = m.memory i ∨ memory = m.tracer.roster.memoryOf .denied) →
      m'.memory i = m.memory i ∨ m'.memory i = m.tracer.roster.memoryOf .denied := by
    intro m' j memory hm' hmemory
    rw [hm', Function.update_apply]
    split
    · rename_i hi
      exact hmemory hi.symm
    · exact .inl rfl
  cases x with
  | call who c counted =>
    by_cases hr : m.ready who.id = true
    · obtain ⟨l, stage, hgoes, heq⟩ := call_goes c counted hr
      refine hupdate (by rw [heq, put, note_memory]) fun hi => ?_
      subst hi
      exact hgoes.memory_of_bans hb hh
    · rw [step, Machine.call, if_neg hr]
      exact .inl rfl
  | advance who =>
    rcases hact : m.active who.id with _ | ⟨a, rest⟩
    · rw [step, Machine.advance, hact]
      exact .inl rfl
    · obtain ⟨l, stage, hgoes, heq⟩ := advance_goes hact
      refine hupdate (by rw [heq, put]) fun hi => ?_
      subst hi
      exact hgoes.memory_of_bans hb hh
  | suspend => rcases m.suspend_cases with heq | ⟨-, heq⟩ <;> rw [step, heq] <;> exact .inl rfl
  | resume => rcases m.resume_cases with heq | ⟨-, heq⟩ <;> rw [step, heq] <;> exact .inl rfl
  | reset l => rw [step, reset]; split <;> exact .inl rfl
  | exclude j => exact hupdate rfl fun _ => .inr rfl
  | look j =>
    refine hupdate rfl fun hi => ?_
    subst hi
    rcases hc : m.tracer.roster.consult j (m.memory j) with ⟨st, memory⟩
    obtain ⟨rfl, hmemory⟩ := hb.consult hh hc
    simpa only [Tracer.look, hc] using hmemory
  | elsewhere j r => exact absurd rfl (hx j r)
  | drain | notify | receive => exact .inl rfl

/-- An excluded thread is not registered any more. -/
theorem slot?_step_of_excluded (he : i ∈ m.tracer.roster.excluded) (x : Move) :
    (m.step x).tracer.roster.slot? i = none ∨
      (m.step x).tracer.roster.slot? i = m.tracer.roster.slot? i ∧
        (m.step x).tracer.roster.generation = m.tracer.roster.generation := by
  have hseats := m.seats_step x
  generalize m.step x = m' at hseats
  cases hseats with
  | same _ hr _ => exact .inr ⟨hr.slot? i, hr.generation⟩
  | @enlist who _ _ _ _ _ _ _ _ _ _ hr _ hnot =>
    have hne : i ≠ who.id := fun heq => hnot (heq ▸ he)
    rw [hr]
    exact .inr ⟨Roster.slot?_enlist_of_ne hne, rfl⟩
  | clear _ hr _ => rw [hr]; exact .inl rfl

theorem bans_exclude (m : Machine) (i : Nat) :
    (m.step (.exclude i)).tracer.roster.Bans i ((m.step (.exclude i)).memory i) := by
  have hmemory : (m.step (.exclude i)).memory i = (m.tracer.roster.exclude i).2 :=
    Function.update_self ..
  rw [hmemory]
  exact .exclude ..

theorem bans_step (hb : m.tracer.roster.Bans i (m.memory i))
    (hh : m.tracer.roster.Heeded i (m.memory i)) (hx : ∀ j r, x ≠ .elsewhere j r) :
    (m.step x).tracer.roster.Bans i ((m.step x).memory i) := by
  have hmemory : m.tracer.roster.Bans i ((m.step x).memory i) := by
    rcases memory_step_of_bans hb hh hx with heq | heq <;> rw [heq]
    · exact hb
    · exact .memoryOf_denied hb.excluded
  exact hmemory.congr (m.roster_id_step x)
    ((m.mem_excluded_step x i).mpr (List.mem_append_right _ hb.excluded))
    (slot?_step_of_excluded hb.excluded x)

/-- A move of a hook that thread `i` has called, not one of its `n` outermost calls. -/
def Late (m : Machine) (i n : Nat) (x : Move) : Prop :=
  x.mover? = some i ∧ ∀ who, x = .advance who → n < (m.active i).length

theorem KeptOut.put {a : Activity} {stage : Stage} {above below : List Activity}
    (hlen : below.length = n) (habove : ∀ b ∈ above, b.stage.isOutside = true)
    (hstage : stage.isOutside = true ∨ stage.isOver = true) (m : Machine) (l : Local) :
    (m.put i l (a.next stage ++ (above ++ below))).KeptOut i n := by
  refine ⟨a.next stage ++ above, below, by simp [Machine.put], hlen, fun b hb => ?_⟩
  rcases List.mem_append.mp hb with hb | hb
  · obtain ⟨rfl, hover⟩ := Activity.eq_of_mem_next hb
    exact hstage.resolve_right (by simp [hover])
  · exact habove b hb

/-- A hook of a thread that is kept out comes to nothing. -/
theorem KeptOut.step_late (hk : m.KeptOut i n) (hb : m.tracer.roster.Bans i (m.memory i))
    (hh : m.tracer.roster.Heeded i (m.memory i)) (hx : m.Late i n x) :
    (m.step x).KeptOut i n ∧ m.tracer.Ignores (m.step x).tracer ∧ (m.step x).past = m.past := by
  obtain ⟨above, below, hact, hlen, habove⟩ := hk
  obtain ⟨hmover, hlate⟩ := hx
  cases x with
  | call who c counted =>
    obtain rfl : who.id = i := Option.some.inj hmover
    by_cases hr : m.ready who.id = true
    · obtain ⟨l, stage, hgoes, heq⟩ := call_goes c counted hr
      obtain ⟨htracer, hstage, hqueue⟩ := hgoes.outside hb hh rfl
      rw [heq, hact]
      refine ⟨.put hlen habove hstage _ _, ?_, note_past ..⟩
      rw [← show l.tracer = m.tracer from htracer]
      exact Activity.settle_ignores _ _ hqueue
    · rw [step, Machine.call, if_neg hr]
      exact ⟨⟨above, below, hact, hlen, habove⟩, .inl rfl, rfl⟩
  | advance who =>
    obtain rfl : who.id = i := Option.some.inj hmover
    rcases above with _ | ⟨a, above⟩
    · have hlt := hlate who rfl
      rw [hact, List.nil_append, hlen] at hlt
      exact absurd hlt (Nat.lt_irrefl n)
    · obtain ⟨ha, habove⟩ := List.forall_mem_cons.mp habove
      obtain ⟨l, stage, hgoes, heq⟩ := advance_goes hact
      obtain ⟨htracer, hstage, hqueue⟩ := hgoes.outside hb hh ha
      rw [heq]
      refine ⟨.put hlen habove hstage _ _, ?_, rfl⟩
      rw [← show l.tracer = m.tracer from htracer]
      exact Activity.settle_ignores _ _ hqueue
  | _ => cases hmover

theorem KeptOut.length_le (hk : m.KeptOut i n) : n ≤ (m.active i).length := by
  obtain ⟨above, below, hact, hlen, -⟩ := hk
  rw [hact, List.length_append]
  omega

/-- Calls from before may go on and return. -/
theorem KeptOut.step (hk : m.KeptOut i n) (hb : m.tracer.roster.Bans i (m.memory i))
    (hh : m.tracer.roster.Heeded i (m.memory i)) (x : Move) :
    (m.step x).KeptOut i (min n ((m.step x).active i).length) := by
  by_cases hx : m.Late i n x
  · obtain ⟨hstep, -, -⟩ := hk.step_late hb hh hx
    rwa [Nat.min_eq_left hstep.length_le]
  by_cases hmover : x.mover? = some i
  swap
  · rw [m.active_step_of_ne hmover, Nat.min_eq_left hk.length_le]
    obtain ⟨above, below, hact, hlen, habove⟩ := hk
    exact ⟨above, below, (m.active_step_of_ne hmover).trans hact, hlen, habove⟩
  -- the innermost call is from before
  obtain ⟨who, rfl, hle⟩ : ∃ who, x = .advance who ∧ (m.active i).length ≤ n := by
    simpa [Late, hmover] using hx
  obtain rfl : who.id = i := Option.some.inj hmover
  have hlen : (m.active who.id).length = n := Nat.le_antisymm hle hk.length_le
  have hstep : ((m.step (.advance who)).active who.id).length ≤ n := by
    rcases hact : m.active who.id with _ | ⟨a, rest⟩
    · rw [Machine.step, Machine.advance, hact, hact]
      exact Nat.zero_le n
    · obtain ⟨l, stage, -, heq⟩ := advance_goes hact
      rw [hact, List.length_cons] at hlen
      rw [heq, ← hlen]
      cases hover : stage.isOver with
      | true => simp [Machine.put, Activity.next_of_isOver hover]
      | false => simp [Machine.put, Activity.next_of_not_isOver hover]
  rw [Nat.min_eq_right hstep]
  exact keptOut_self ..

end Machine

/-! ### Fleets -/

namespace Fleet
variable {f : Fleet} {k i n : Nat}

/-- A state that goes with all fleets of a run. -/
def Throughout (P : Fleet → Prop) : Fleet → List (Nat × Move) → Prop
  | f, [] => P f
  | f, x :: xs => P f ∧ Throughout P (f.step x) xs

instance Throughout.decidable (P : Fleet → Prop) [DecidablePred P] :
    (f : Fleet) → (xs : List (Nat × Move)) → Decidable (Throughout P f xs)
  | f, [] => inferInstanceAs (Decidable (P f))
  | f, x :: xs =>
    have := Throughout.decidable P (f.step x) xs
    inferInstanceAs (Decidable (P f ∧ Throughout P (f.step x) xs))

/-- Thread `i` is not registered in tracer `k`, or remembers nothing of other tracers. -/
def Heeds (k i : Nat) (f : Fleet) : Prop := (f.machine k).tracer.roster.Heeded i (f.memory i)

instance : DecidablePred (Heeds k i) := fun _ => inferInstanceAs (Decidable (Roster.Heeded ..))

/-- How many of the `n` outermost calls of a thread in tracer `k` are in progress after a run. -/
def left (f : Fleet) (k i : Nat) : Nat → List (Nat × Move) → Nat
  | n, [] => n
  | n, x :: xs => (f.step x).left k i (min n (((f.step x).machine k).active i).length) xs

/-- Thread `i` is excluded from tracer `k`; of its calls `n` are from before. -/
structure Barred (f : Fleet) (k i n : Nat) : Prop where
  remembers : f.remembers = true
  roster_id : ∀ j, (f.machine j).tracer.roster.id = j
  bans : (f.machine k).tracer.roster.Bans i (f.memory i)
  calls : (f.machine k).KeptOut i n

namespace Barred

theorem exclude (hf : f.remembers = true) (hid : ∀ j, (f.machine j).tracer.roster.id = j)
    (k i : Nat) : (f.step (k, .exclude i)).Barred k i ((f.machine k).active i).length := by
  have hx : ∀ j r, Move.exclude i ≠ .elsewhere j r := by rintro j r ⟨⟩
  refine ⟨(f.remembers_step _).trans hf, fun j => roster_id_step hid _ j, ?_, ?_⟩
  · rw [step_eq f k hx]
    simp only [Function.update_self]
    exact (f.view k).bans_exclude i
  · rw [step_eq f k hx]
    simp only [Function.update_self]
    exact (f.machine k).keptOut_self i

/-- A hook that thread `i` has called since. -/
theorem step_late (h : f.Barred k i n) (hh : f.Heeds k i) {x : Move}
    (hx : (f.machine k).Late i n x) :
    (f.machine k).tracer.Ignores ((f.step (k, x)).machine k).tracer ∧
      ((f.step (k, x)).machine k).past = (f.machine k).past ∧
      ∀ j, j ≠ i → ((f.step (k, x)).machine k).active j = (f.machine k).active j := by
  have hne : ∀ j r, x ≠ .elsewhere j r := by
    rintro j r rfl
    cases hx.1
  have hview := view_eq h.remembers k
  rw [step_eq f k hne]
  simp only [Function.update_self]
  have hk : (f.view k).KeptOut i n := h.calls
  obtain ⟨-, hignores, hpast⟩ := hk.step_late (x := x) (by rw [hview]; exact h.bans)
    (by rw [hview]; exact hh) hx
  refine ⟨hignores, hpast, fun j hj => (f.view k).active_step_of_ne ?_⟩
  rw [hx.1]
  exact fun heq => hj (Option.some.inj heq).symm

/-- What a thread does in other tracers does not undo its exclusion. -/
theorem bans_of_ne (h : f.Barred k i n) {j : Nat} (hj : j ≠ k) {x : Move}
    (hx : ∀ i r, x ≠ .elsewhere i r) :
    (f.machine k).tracer.roster.Bans i (((f.view j).step x).memory i) := by
  rcases (f.view j).memory_step hx i with heq | ⟨c, heq, hc⟩
  · rw [heq, view_eq h.remembers]
    exact h.bans
  · rw [heq]
    refine h.bans.distract ?_
    rw [hc, h.roster_id k, show (f.view j).tracer.roster.id = j from h.roster_id j]
    exact hj

theorem step (h : f.Barred k i n) (hh : f.Heeds k i) (x : Nat × Move) :
    (f.step x).Barred k i (min n (((f.step x).machine k).active i).length) ∧
      ∀ s, ((f.step x).machine k).tracer.roster.slot? i = some s →
        (f.machine k).tracer.roster.slot? i = some s := by
  have hid := roster_id_step h.roster_id x
  have hremembers := (f.remembers_step x).trans h.remembers
  obtain ⟨j, x⟩ := x
  by_cases hx : ∃ i r, x = .elsewhere i r
  · obtain ⟨i', r, rfl⟩ := hx
    refine ⟨⟨hremembers, hid, h.bans, ?_⟩, fun s hs => hs⟩
    rw [step_elsewhere, Nat.min_eq_left h.calls.length_le]
    exact h.calls
  have hx : ∀ i r, x ≠ .elsewhere i r := fun i r heq => hx ⟨i, r, heq⟩
  by_cases hj : j = k
  · subst hj
    have hview := view_eq h.remembers j
    have hb : (f.view j).tracer.roster.Bans i ((f.view j).memory i) := by
      rw [hview]
      exact h.bans
    have hh : (f.view j).tracer.roster.Heeded i ((f.view j).memory i) := by
      rw [hview]
      exact hh
    have hk : (f.view j).KeptOut i n := h.calls
    have hmachine : (f.step (j, x)).machine j = (f.view j).step x := by
      rw [step_eq f j hx]
      exact Function.update_self ..
    have hmemory : (f.step (j, x)).memory = ((f.view j).step x).memory := by rw [step_eq f j hx]
    refine ⟨⟨hremembers, hid, ?_, ?_⟩, fun s hs => ?_⟩
    · rw [hmachine, hmemory]
      exact Machine.bans_step hb hh hx
    · rw [hmachine]
      exact hk.step hb hh x
    · rw [hmachine] at hs
      rcases Machine.slot?_step_of_excluded hb.excluded x with heq | ⟨heq, -⟩
      · rw [heq] at hs
        cases hs
      · exact heq.symm.trans hs
  · have hmachine : (f.step (j, x)).machine k = f.machine k := by
      rw [step_eq f j hx]
      exact Function.update_of_ne (fun heq => hj heq.symm) ..
    have hmemory : (f.step (j, x)).memory = ((f.view j).step x).memory := by rw [step_eq f j hx]
    rw [hmachine, Nat.min_eq_left h.calls.length_le]
    refine ⟨⟨hremembers, hid, ?_, ?_⟩, fun s hs => hs⟩
    · rw [hmachine, hmemory]
      exact h.bans_of_ne hj hx
    · rw [hmachine]
      exact h.calls

theorem run (h : f.Barred k i n) {xs : List (Nat × Move)} (hh : f.Throughout (Heeds k i) xs) :
    (f.run xs).Barred k i (f.left k i n xs) ∧ (f.run xs).Heeds k i ∧
      ∀ s, ((f.run xs).machine k).tracer.roster.slot? i = some s →
        (f.machine k).tracer.roster.slot? i = some s := by
  induction xs generalizing f n with
  | nil => exact ⟨h, hh, fun s hs => hs⟩
  | cons x xs ih =>
    obtain ⟨hheeds, hh⟩ := hh
    obtain ⟨hbarred, hslot⟩ := h.step hheeds x
    obtain ⟨hrun, hheeds, hslots⟩ := ih hbarred hh
    exact ⟨hrun, hheeds, fun s hs => hslot s (hslots s hs)⟩

end Barred

end Fleet

/-- Thread `i` is excluded from tracer `k` of a fleet in any state; from then on, whatever happens,
it does not look itself up in other tracers while it is registered in `k`. Then it is never registered
anew, and every hook that it has called since in `k` comes to nothing, move by move: no stack and no
guard changes, nobody is registered, no slot is taken, no invocation is noted and nothing is written;
at most its refusal is counted. Where `k` had `n` calls of the thread in progress at its exclusion,
those of them that are left are the outermost. -/
theorem excluded_threads_are_inert (settings : Nat → Settings) (hasHandler : Nat → Bool)
    (xs ys : List (Nat × Move)) (k i : Nat) :
    let before := (Fleet.new true settings hasHandler).run xs
    let f := before.step (k, .exclude i)
    let g := f.run ys
    f.Throughout (Fleet.Heeds k i) ys →
    (∀ s, (g.machine k).tracer.roster.slot? i = some s →
      (before.machine k).tracer.roster.slot? i = some s) ∧
    ∀ x, (g.machine k).Late i (f.left k i ((before.machine k).active i).length ys) x →
      (g.machine k).tracer.Ignores ((g.step (k, x)).machine k).tracer ∧
      ((g.step (k, x)).machine k).past = (g.machine k).past ∧
      ∀ j, j ≠ i → ((g.step (k, x)).machine k).active j = (g.machine k).active j := by
  intro before f g hh
  have hid : ∀ j, (before.machine j).tracer.roster.id = j := Fleet.ids_run (fun _ => rfl) xs
  have hremembers : before.remembers = true := Fleet.remembers_run _ xs
  obtain ⟨hbarred, hheeds, hslot⟩ := (Fleet.Barred.exclude hremembers hid k i).run hh
  refine ⟨fun s hs => ?_, fun x hx => hbarred.step_late hheeds hx⟩
  have hexclude := hslot s hs
  rw [Fleet.step_eq _ _ (by rintro j r ⟨⟩)] at hexclude
  simp only [Function.update_self] at hexclude
  exact hexclude

/-- Thread 0 is registered in tracer 0 and excluded from it; it enters a method and is denied. After a
reset it looks into tracer 1, and when it enters a root in tracer 0 it is denied again. -/
theorem excluded_threads_are_inert_after_a_reset :
    let new := Fleet.new true (fun _ => .default) fun _ => false
    let enters (h : Hook) (n : Nat) : List (Nat × Move) :=
      (0, .call ⟨0, none⟩ ⟨h, ⟨1⟩, none⟩ true) :: List.replicate n (0, .advance ⟨0, none⟩)
    let xs := enters .rootEntry 5
    let ys := enters .methodEntry 1 ++ [(0, .suspend), (0, .reset ⟨4, 8, 4⟩), (0, .resume), (1, .look 0),
      (0, .call ⟨0, none⟩ ⟨.rootEntry, ⟨1⟩, none⟩ true)]
    let before := new.run xs
    let f := before.step (0, .exclude 0)
    let g := f.run ys
    let g' := g.step (0, .advance ⟨0, none⟩)
    f.Throughout (Fleet.Heeds 0 0) ys ∧
      (g.machine 0).Late 0 (f.left 0 0 ((before.machine 0).active 0).length ys) (.advance ⟨0, none⟩) ∧
      (before.machine 0).tracer.roster.slot? 0 = some 0 ∧
      (g.machine 0).tracer.Ignores (g'.machine 0).tracer ∧
      (g'.machine 0).tracer.tally.denied = 1 := by
  intro new enters xs ys
  have hinert := excluded_threads_are_inert (fun _ => .default) (fun _ => false) xs ys 0 0
  dsimp only at hinert ⊢
  generalize hbefore : new.run xs = before at hinert ⊢
  generalize hf : before.step (0, .exclude 0) = f at hinert ⊢
  generalize hg : f.run ys = g at hinert ⊢
  have hheeds : f.Throughout (Fleet.Heeds 0 0) ys := by
    rw [← hf, ← hbefore]
    decide +kernel
  have hlength : f.left 0 0 ((before.machine 0).active 0).length ys < ((g.machine 0).active 0).length := by
    rw [← hg, ← hf, ← hbefore]
    decide +kernel
  have hlate : (g.machine 0).Late 0 (f.left 0 0 ((before.machine 0).active 0).length ys)
      (.advance ⟨0, none⟩) := ⟨rfl, fun _ _ => hlength⟩
  have hslot : (before.machine 0).tracer.roster.slot? 0 = some 0 := by
    rw [← hbefore]
    decide +kernel
  have hdenied : ((g.step (0, .advance ⟨0, none⟩)).machine 0).tracer.tally.denied = 1 := by
    rw [← hg, ← hf, ← hbefore]
    decide +kernel
  obtain ⟨-, hlater⟩ := hinert hheeds
  exact ⟨hheeds, hlate, hslot, (hlater _ hlate).1, hdenied⟩

/-- Thread 0 enters a root in tracer 0 and is excluded from it. It looks itself up in tracer 1. Then it
enters a method in tracer 0, which pushes a frame and writes a record. -/
theorem excluded_thread_traces_on :
    let new := Fleet.new true (fun _ => .default) fun _ => false
    let enters (h : Hook) : List (Nat × Move) :=
      (0, .call ⟨0, none⟩ ⟨h, ⟨1⟩, none⟩ true) :: List.replicate 5 (0, .advance ⟨0, none⟩)
    let f := new.run (enters .rootEntry ++ [(0, .exclude 0), (1, .look 0)])
    let g := f.run (enters .methodEntry)
    let depth (f : Fleet) := ((f.machine 0).tracer.roster.stackOf 0).map (·.depth)
    0 ∈ (f.machine 0).tracer.roster.excluded ∧ (f.machine 0).active 0 = [] ∧
      depth f = some 1 ∧ depth g = some 2 ∧
      ((f.machine 0).history.length, (g.machine 0).history.length) = (2, 3) := by
  intro new enters f g depth
  refine ⟨by decide +kernel, ?_, by decide +kernel, by decide +kernel, by decide +kernel⟩
  exact List.length_eq_zero_iff.mp (by decide +kernel)

end MethodTrace
