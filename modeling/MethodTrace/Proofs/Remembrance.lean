import MethodTrace.Proofs.Seating

/-!
# What threads remember across resets

A thread remembers its last lookup in any roster. As long as the generations of a roster do not come
back, what a thread remembers of the present one is right, or it has been denied for a reason
(`Machine.Mindful`): clearing the roster makes all that is remembered of it worthless.
-/

namespace MethodTrace

namespace Roster
variable {r r' : Roster} {i : Nat} {reason reason' : Prop} {memory memory' : Memory} {st : Standing}

/-- What thread `i` remembers of this roster is right, or it is denied for a reason. -/
def Minds (r : Roster) (reason : Prop) (i : Nat) (memory : Memory) : Prop :=
  ∀ st, r.recollect memory = some st → st = r.lookup i ∨ st = .denied ∧ reason

namespace Minds

theorem recalls (h : r.Minds reason i memory) : r.Recalls i memory :=
  fun st hst => (h st hst).imp_right And.left

theorem congr (h : r.Minds reason i memory) (hid : r'.id = r.id)
    (hg : r'.generation = r.generation) (hl : r'.lookup i = r.lookup i)
    (hreason : reason → reason') : r'.Minds reason' i memory := by
  intro st hst
  rw [hl]
  refine (h st ?_).imp_right (And.imp_right hreason)
  unfold recollect at hst ⊢
  rwa [hid, hg] at hst

theorem memoryOf (h : st = r.lookup i ∨ st = .denied ∧ reason) :
    r.Minds reason i (r.memoryOf st) := by
  intro st' hst
  rw [recollect_memoryOf] at hst
  cases hst
  exact h

theorem consult (h : r.Minds reason i memory) (hc : r.consult i memory = (st, memory')) :
    (st = r.lookup i ∨ st = .denied ∧ reason) ∧ r.Minds reason i memory' := by
  unfold Roster.consult at hc
  split at hc
  · rename_i m hm
    cases hc
    exact ⟨h _ hm, h⟩
  · cases hc
    exact ⟨.inl rfl, memoryOf (.inl rfl)⟩

/-- Of another generation nothing is remembered. -/
theorem of_generation (h : ∀ c, memory = some c → c.roster = r.id → c.generation ≠ r.generation) :
    r.Minds reason i memory := by
  intro st hst
  obtain ⟨c, hc, hr, hg, -⟩ := recollect_eq_some hst
  exact absurd hg (h c hc hr)

end Minds

theorem consult_memory {st : Standing} (hc : r.consult i memory = (st, memory')) :
    memory' = memory ∨ ∃ st, memory' = r.memoryOf st := by
  unfold consult at hc
  split at hc
  · cases hc
    exact .inl rfl
  · cases hc
    exact .inr ⟨_, rfl⟩

theorem register_memory (r : Roster) (who : OsThread) (q : Quota) (memory : Memory) :
    (r.register who q memory).memory = memory ∨
      ∃ st, (r.register who q memory).memory = r.memoryOf st := by
  unfold register
  split
  · exact .inl rfl
  · split <;> exact .inr ⟨_, rfl⟩

theorem lookup_of_slot? {s : Slot} (h : r.slot? i = some s) : r.lookup i = .registered s :=
  lookup_eq_registered_iff.mpr h

theorem SameSeats.lookup (h : r.SameSeats r') (he : r'.excluded = r.excluded) (i : Nat) :
    r'.lookup i = r.lookup i := by
  rw [Roster.lookup, h.members, he, Roster.lookup]

end Roster

/-- Why a thread is denied: it is excluded, or there was no room. -/
def Tracer.Denies (t : Tracer) (i : Nat) : Prop := t.quota.remaining = 0 ∨ i ∈ t.roster.excluded

namespace Call.Goes
variable {c : Call} {who : OsThread} {l l' : Local} {stage stage' : Stage}

/-- What a thread remembers after a step of one of its calls. -/
theorem minds {reason reason' : Prop} (h : c.Goes who l stage l' stage')
    (hm : l.tracer.roster.Minds reason who.id l.memory) (hreason : reason → reason')
    (hdenied : ∀ epoch, stage = .running epoch → c.hook.enrolls = true →
      l.tracer.roster.slot? who.id = none → l.tracer.Denies who.id → reason') :
    l'.tracer.roster.Minds reason' who.id l'.memory := by
  have hkeep : ∀ {memory : Memory}, l.tracer.roster.Minds reason who.id memory →
      l.tracer.roster.Minds reason' who.id memory := fun h => h.congr rfl rfl rfl hreason
  cases h with
  | find hc | denied hc | stranger hc => exact hkeep (hm.consult hc).2
  | @register t memory memory' epoch slot hc he hr =>
    have hnone := hm.recalls.slot?_of_unregistered hc
    obtain ⟨-, -, q, -, heq⟩ := Roster.register_of_slot_eq_some hnone hr
    rw [heq]
    have hlookup : (t.roster.enlist who).lookup who.id = .registered t.roster.callStacks.size :=
      Roster.lookup_of_slot? (Roster.slot?_enlist_self who hnone)
    exact Roster.Minds.memoryOf (r := t.roster.enlist who) (.inl hlookup.symm)
  | @refuse t memory memory' epoch hc he hr =>
    have hnone := hm.recalls.slot?_of_unregistered hc
    obtain ⟨hd, heq⟩ := Roster.register_of_slot_eq_none hnone hr
    rw [heq]
    exact .memoryOf (.inr ⟨rfl, hdenied epoch rfl he hnone hd⟩)
  | @guard t memory epoch slot fresh s hs hg => exact hkeep hm
  | act =>
    rw [act_touches.roster]
    exact hkeep hm
  | @tell t memory epoch slot o =>
    rw [(enter_touches epoch o).roster]
    exact hkeep hm
  | _ => exact hkeep hm

/-- What a call finds out belongs to the present generation. -/
theorem memory_of (h : c.Goes who l stage l' stage') :
    l'.memory = l.memory ∨ ∃ st, l'.memory = l.tracer.roster.memoryOf st := by
  cases h with
  | find hc | denied hc | stranger hc => exact Roster.consult_memory hc
  | register hc | refuse hc =>
    rcases Roster.register_memory _ _ _ _ with heq | ⟨st, heq⟩
    · rcases Roster.consult_memory hc with heq' | ⟨st, heq'⟩
      · exact .inl (heq.trans heq')
      · exact .inr ⟨st, heq.trans heq'⟩
    · exact .inr ⟨st, heq⟩
  | _ => exact .inl rfl

end Call.Goes

namespace Machine
variable {m : Machine} {x : Move} {n : Nat} {reason reason' : Nat → Prop}

/-- After `n` resets. -/
structure Mindful (m : Machine) (n : Nat) (reason : Nat → Prop) : Prop where
  generation : m.tracer.roster.generation = .ofNat n
  past : ∀ i c, m.memory i = some c → c.roster = m.tracer.roster.id → c.generation.toNat ≤ n
  minds : ∀ i, m.tracer.roster.Minds (reason i) i (m.memory i)

namespace Mindful

theorem new (id : Nat) (s : Settings) (hasHandler : Bool) (reason : Nat → Prop) :
    (Machine.new (.new id s hasHandler)).Mindful 0 reason where
  generation := rfl
  past i c h := by cases h
  minds i st h := by cases h

theorem congr {m' : Machine} (h : m.Mindful n reason) (hid : m'.tracer.roster.id = m.tracer.roster.id)
    (hg : m'.tracer.roster.generation = m.tracer.roster.generation)
    (hl : ∀ i, m'.tracer.roster.lookup i = m.tracer.roster.lookup i)
    (hm : m'.memory = m.memory) (hreason : ∀ i, reason i → reason' i) : m'.Mindful n reason' where
  generation := hg.trans h.generation
  past := by rw [hm, hid]; exact h.past
  minds i := by rw [hm]; exact (h.minds i).congr hid hg (hl i) (hreason i)

theorem toNat_generation (h : m.Mindful n reason) (hn : n < UInt64.size) :
    m.tracer.roster.generation.toNat = n := by
  rw [h.generation, UInt64.toNat_ofNat_of_lt' hn]

/-- A thread remembers something else now, which is about the present generation. -/
theorem update {m' : Machine} (h : m.Mindful n reason) (hn : n < UInt64.size) {i : Nat}
    (memory : Memory) (hid : m'.tracer.roster.id = m.tracer.roster.id)
    (hg : m'.tracer.roster.generation = m.tracer.roster.generation)
    (hl : ∀ j, j ≠ i → m'.tracer.roster.lookup j = m.tracer.roster.lookup j)
    (hm : m'.memory = Function.update m.memory i memory)
    (hmemory : memory = m.memory i ∨ ∃ st, memory = m.tracer.roster.memoryOf st)
    (hi : m'.tracer.roster.Minds (reason' i) i memory) (hreason : ∀ j, reason j → reason' j) :
    m'.Mindful n reason' where
  generation := hg.trans h.generation
  past j c hc hr := by
    rw [hm, Function.update_apply] at hc
    rw [hid] at hr
    split at hc
    · rcases hmemory with heq | ⟨st, heq⟩
      · exact h.past i c (heq ▸ hc) hr
      · rw [heq] at hc
        cases hc
        exact Nat.le_of_eq (h.toNat_generation hn)
    · exact h.past j c hc hr
  minds j := by
    rw [hm, Function.update_apply]
    split
    · rename_i hj
      rw [hj]
      exact hi
    · rename_i hj
      exact (h.minds j).congr hid hg (hl j hj) (hreason j)

theorem proceed (h : m.Mindful n reason) (hn : n < UInt64.size) {who : OsThread} {a : Activity}
    {rest : List Activity} (hreason : ∀ i, reason i → reason' i)
    (hdenied : ∀ epoch, a.stage = .running epoch → a.call.hook.enrolls = true →
      m.tracer.roster.slot? who.id = none → m.tracer.Denies who.id → reason' who.id) :
    (m.proceed who a rest).Mindful n reason' := by
  obtain ⟨l, stage, hgoes, hm⟩ := m.proceed_goes who a rest
  obtain ⟨hid, hg, hexcluded⟩ := hgoes.roster_same
  have hlookup : ∀ j, j ≠ who.id → l.tracer.roster.lookup j = m.tracer.roster.lookup j := by
    intro j hj
    cases hgoes.seats with
    | same hr _ => exact hr.lookup hexcluded j
    | enlist _ _ _ _ hr _ => rw [hr]; exact Roster.lookup_enlist_of_ne hj
  rw [hm]
  refine h.update hn l.memory ?_ ?_ (fun j hj => ?_) rfl hgoes.memory_of ?_ hreason
  · simpa [put] using hid
  · simpa [put] using hg
  · simpa [put] using hlookup j hj
  · simpa [put] using hgoes.minds (h.minds who.id) (hreason who.id) hdenied

/-- What is remembered is of an earlier generation then. -/
theorem reset (h : m.Mindful n reason) (hn : n + 1 < UInt64.size)
    (hs : m.tracer.suspension.suspended = true) (l : Settings.Limits) :
    (m.step (.reset l)).Mindful (n + 1) reason' := by
  have hgeneration : m.tracer.roster.clear.generation = .ofNat (n + 1) := by
    rw [UInt64.ofNat_add, ← h.generation]
    rfl
  rw [Machine.step, Machine.reset, Tracer.reset, if_pos hs]
  refine ⟨hgeneration, fun i c hc hc' => Nat.le_succ_of_le (h.past i c hc hc'), fun i => ?_⟩
  refine .of_generation fun c hc hc' heq => ?_
  have hle := h.past i c hc hc'
  have heq : c.generation = m.tracer.roster.clear.generation := heq
  rw [heq, hgeneration, UInt64.toNat_ofNat_of_lt' hn] at hle
  omega

/-- What is remembered of another roster says nothing of this one. -/
theorem distract (h : m.Mindful n reason) {memory : Nat → Memory}
    (hm : ∀ i, memory i = m.memory i ∨ ∃ c, memory i = some c ∧ c.roster ≠ m.tracer.roster.id) :
    { m with memory := memory }.Mindful n reason where
  generation := h.generation
  past i c hc hr := by
    rcases hm i with heq | ⟨c', heq, hne⟩
    · exact h.past i c (heq ▸ hc) hr
    · have hcc : c' = c := Option.some.inj (heq.symm.trans hc)
      exact absurd hr (hcc ▸ hne)
  minds i := by
    change m.tracer.roster.Minds (reason i) i (memory i)
    rcases hm i with heq | ⟨c', heq, hne⟩
    · rw [heq]
      exact h.minds i
    · rw [heq]
      exact .of_generation fun c hc hr => by cases hc; exact absurd hr hne

theorem elsewhere (h : m.Mindful n reason) (hreason : ∀ i, reason i → reason' i) (i : Nat)
    (r : Recollection) : (m.step (.elsewhere i r)).Mindful n reason' := by
  simp only [Machine.step]
  split
  · exact h.congr rfl rfl (fun _ => rfl) rfl hreason
  · rename_i hr
    have hm : ∀ j, Function.update m.memory i (some r) j = m.memory j ∨
        ∃ c, Function.update m.memory i (some r) j = some c ∧ c.roster ≠ m.tracer.roster.id := by
      intro j
      by_cases hj : j = i
      · subst hj
        exact .inr ⟨r, Function.update_self .., hr⟩
      · exact .inl (Function.update_of_ne hj ..)
    exact (h.distract hm).congr rfl rfl (fun _ => rfl) rfl hreason

/-- A move. Nobody is denied without a reason, and after a reset nobody is denied. -/
theorem step (h : m.Mindful n reason) (x : Move)
    (hn : (if m.resets x then n + 1 else n) < UInt64.size)
    (hreason : m.resets x = false → ∀ i, reason i → reason' i)
    (hexclude : ∀ i, x = .exclude i → reason' i)
    (hdenied : ∀ who a rest epoch, x = .advance who → m.active who.id = a :: rest →
      a.stage = .running epoch → a.call.hook.enrolls = true →
      m.tracer.roster.slot? who.id = none → m.tracer.Denies who.id → reason' who.id) :
    (m.step x).Mindful (if m.resets x then n + 1 else n) reason' := by
  have hn' : n < UInt64.size := by split at hn <;> omega
  cases x with
  | call who c counted =>
    have hreason := hreason rfl
    simp only [Machine.step, Machine.call]
    split
    · have hnote : (m.note who.id c).Mindful n reason :=
        h.congr (by simp) (by simp) (by simp) (by simp) fun _ => id
      exact hnote.proceed hn' hreason fun _ hs => by cases hs
    · exact h.congr rfl rfl (fun _ => rfl) rfl hreason
  | advance who =>
    have hreason := hreason rfl
    simp only [Machine.step, Machine.advance]
    split
    · exact h.congr rfl rfl (fun _ => rfl) rfl hreason
    · rename_i a rest hact
      exact h.proceed hn' hreason fun epoch => hdenied who a rest epoch rfl hact
  | suspend =>
    have hreason := hreason rfl
    rcases m.suspend_cases with heq | ⟨-, heq⟩ <;> rw [Machine.step, heq]
    · exact h.congr rfl rfl (fun _ => rfl) rfl hreason
    · have hroster := Suspension.bumpAll_eq m.tracer.roster m.tracer.roster.slots
      refine h.congr ?_ ?_ (fun i => ?_) rfl hreason <;> dsimp only <;> rw [hroster]
      rfl
  | resume =>
    have hreason := hreason rfl
    rcases m.resume_cases with heq | ⟨-, heq⟩ <;> rw [Machine.step, heq]
    · exact h.congr rfl rfl (fun _ => rfl) rfl hreason
    · have hroster := Suspension.releaseAll_eq m.tracer.roster m.tracer.suspension.held
      refine h.congr ?_ ?_ (fun i => ?_) rfl hreason <;> dsimp only <;> rw [hroster]
      rfl
  | reset l =>
    rcases hr : m.tracer.reset l with e | t
    · have hs : m.resets (.reset l) = false := Tracer.reset_eq_error hr
      rw [hs, Machine.step, Machine.reset, hr]
      exact h.congr rfl rfl (fun _ => rfl) rfl (hreason hs)
    · have hs := (Tracer.reset_eq_ok hr).1
      have hresets : m.resets (.reset l) = true := hs
      rw [hresets, if_pos rfl] at hn ⊢
      exact h.reset hn hs l
  | exclude i =>
    refine h.update hn' (m.tracer.roster.memoryOf .denied) rfl rfl (fun j hj => ?_) rfl
      (.inr ⟨_, rfl⟩) ?_ (hreason rfl)
    · exact Roster.lookup_exclude_of_ne hj
    · exact Roster.Minds.memoryOf (r := (m.tracer.roster.exclude i).1)
        (.inr ⟨rfl, hexclude i rfl⟩)
  | look i =>
    rcases hc : m.tracer.roster.consult i (m.memory i) with ⟨st, memory⟩
    rw [Machine.step, m.tracer.look_memory, hc]
    exact h.update hn' memory rfl rfl (fun _ _ => rfl) rfl (Roster.consult_memory hc)
      (((h.minds i).consult hc).2.congr rfl rfl rfl (hreason rfl i)) (hreason rfl)
  | elsewhere i r => exact h.elsewhere (hreason rfl) i r
  | drain | notify | receive => exact h.congr rfl rfl (fun _ => rfl) rfl (hreason rfl)

end Mindful

end Machine

end MethodTrace
