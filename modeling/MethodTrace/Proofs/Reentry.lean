import MethodTrace.Proofs.Holding

/-!
# Hooks within a telling

While a call tells a first invocation, its thread may call hooks. As long as the thread keeps the
slot of the call that tells, they come to nothing (`hooks_within_a_telling_are_inert`): they are
refused at the guard at the latest, and nothing is told within the telling. A reset that is made
meanwhile takes the slot from the thread, and with it the guard.
-/

namespace MethodTrace

/-- Nothing has happened but that a refusal may have been counted. -/
def Tracer.Ignores (t t' : Tracer) : Prop :=
  t' = t ∨ ∃ e, (∀ q, e ≠ .queue q) ∧ t' = t.countRefused e

theorem Activity.settle_ignores (a : Activity) (t : Tracer) {stage : Stage}
    (h : ∀ q, stage ≠ .returned (.error (.queue q))) : t.Ignores (a.settle t stage) := by
  unfold settle
  split
  · rename_i result
    split
    · rcases result with e | _
      · exact .inr ⟨e, fun q hq => h q (by rw [hq]), rfl⟩
      · exact .inl rfl
    · exact .inl rfl
  · exact .inl rfl

theorem Stage.tells_of_isEarly {stage : Stage} (h : stage.isEarly = true) : stage.tells = false := by
  cases stage <;> first | rfl | cases h

/-- What a registered thread remembers after a step of a call at this stage. -/
def Stage.memoryAfter (r : Roster) (i : Nat) (memory : Memory) : Stage → Memory
  | .running _ => (r.consult i memory).2
  | _ => memory

theorem Call.Goes.memory {c : Call} {who : OsThread} {l l' : Local} {stage stage' : Stage} {slot : Slot}
    (h : c.Goes who l stage l' stage') (hm : l.tracer.roster.Recalls who.id l.memory)
    (hi : l.tracer.roster.slot? who.id = some slot) :
    l'.memory = stage.memoryAfter l.tracer.roster who.id l.memory := by
  cases h with
  | find hc | denied hc | stranger hc => exact (congrArg Prod.snd hc).symm
  | register hc | refuse hc =>
    rw [hm.slot?_of_unregistered hc] at hi
    cases hi
  | _ => rfl

namespace Machine
variable {m : Machine} {n : Nat} {who : OsThread} {above below : List Activity} {a b : Activity}
  {slot : Slot}

/-- Within a telling a thread has at most one more call in progress, which has not got as far as the
guard. -/
theorem Holding.early_above (h : m.Holding) (hact : m.active who.id = above ++ b :: below)
    (hb : b.stage.slot? = some slot) (hi : m.tracer.roster.slot? who.id = some slot) :
    above = [] ∨ ∃ a, above = [a] ∧ a.stage.isEarly = true := by
  have hyields := h.yields who.id
  rw [hact] at hyields
  cases above with
  | nil => exact .inl rfl
  | cons a above =>
    have hearly : ∀ a' ∈ a :: above, a'.stage.isEarly = true := fun a' ha' =>
      (((List.pairwise_append.mp hyields).2.2 a' ha' b List.mem_cons_self).2 slot hb hi).1
    refine .inr ⟨a, ?_, hearly a List.mem_cons_self⟩
    -- all but the innermost call tell something
    rcases above with _ | ⟨a', above⟩
    · rfl
    · have htells := (List.rel_of_pairwise_cons hyields
        (List.mem_cons_self (a := a') (l := above ++ b :: below))).1
      rw [Stage.tells_of_isEarly (hearly a' (by simp))] at htells
      cases htells

/-- What a call within a telling does with its next step. -/
theorem Upheld.advance_within (h : m.Upheld n) (hact : m.active who.id = a :: b :: below)
    (hb : b.stage.slot? = some slot) (hi : m.tracer.roster.slot? who.id = some slot) :
    ∃ stage memory, (∀ q, stage ≠ .returned (.error (.queue q))) ∧
      memory = a.stage.memoryAfter m.tracer.roster who.id (m.memory who.id) ∧
      m.step (.advance who) =
        m.put who.id ⟨a.settle m.tracer stage, memory⟩ (a.next stage ++ b :: below) := by
  obtain ⟨l, stage, hgoes, heq⟩ := advance_goes hact
  have hover := h.steady.going who.id a (by rw [hact]; exact List.mem_cons_self)
  have hrecalls := (h.mindful.minds who.id).recalls
  have hturn := hgoes.turn hover hrecalls
  have hqueue := hgoes.result_ne_queue hover
  have hmemory := hgoes.memory hrecalls hi
  generalize hst : a.stage = st at hturn hmemory
  cases hturn with
  | find => exact ⟨_, _, hqueue, hmemory, heq⟩
  | enlist hnone _ =>
    rw [hnone] at hi
    cases hi
  | rework hslot _ _ hs _ =>
    subst hst
    exact absurd hi (h.holding.slot?_ne hact hslot hs List.mem_cons_self hb)

/-- A move that a thread makes within a telling. -/
theorem Upheld.step_within (h : m.Upheld n) (hact : m.active who.id = above ++ b :: below)
    (hb : b.stage.slot? = some slot) (hi : m.tracer.roster.slot? who.id = some slot) {x : Move}
    (hx : x = .advance who ∧ above ≠ [] ∨ ∃ c counted, x = .call who c counted) :
    m.tracer.Ignores (m.step x).tracer ∧ (m.step x).past = m.past ∧
      (∃ above', (m.step x).active who.id = above' ++ b :: below) ∧
      ∀ i, i ≠ who.id → (m.step x).active i = m.active i := by
  rcases hx with ⟨rfl, hne⟩ | ⟨c, counted, rfl⟩
  · rcases h.holding.early_above hact hb hi with rfl | ⟨a, rfl, -⟩
    · exact absurd rfl hne
    · obtain ⟨stage, memory, hqueue, -, heq⟩ := h.advance_within hact hb hi
      rw [heq]
      exact ⟨a.settle_ignores _ hqueue, rfl, ⟨a.next stage, by simp [put]⟩,
        fun i hne => by simp [put, hne]⟩
  · by_cases hr : m.ready who.id = true
    · obtain ⟨l, stage, hgoes, heq⟩ := call_goes c counted hr
      have hl : l.tracer = m.tracer := by cases hgoes <;> rfl
      rw [heq, hl]
      refine ⟨Activity.settle_ignores _ _ (hgoes.result_ne_queue rfl), by simp [put],
        ⟨(⟨c, counted, .called⟩ : Activity).next stage ++ above, by simp [put, hact]⟩,
        fun i hne => by simp [put, hne]⟩
    · rw [Machine.step, Machine.call, if_neg hr]
      exact ⟨.inl rfl, rfl, ⟨above, hact⟩, fun _ _ => rfl⟩

end Machine

/-- While a call `b` is in progress with the slot that its thread has now, whatever hooks its thread
calls come to nothing, step by step: no stack and no guard changes, nobody is registered, no slot is
taken, no invocation is noted and nothing is written; at most their refusal is counted. So nothing is
told within the telling of `b`. -/
theorem hooks_within_a_telling_are_inert (id : Nat) (s : Settings) (hasHandler : Bool)
    (xs : List Move) (who : OsThread) (above : List Activity) (b : Activity) (below : List Activity)
    (slot : Slot) :
    let m := (Machine.new (.new id s hasHandler)).run xs
    (Machine.new (.new id s hasHandler)).resetsIn xs < UInt64.size →
    m.active who.id = above ++ b :: below → b.stage.slot? = some slot →
    m.tracer.roster.slot? who.id = some slot →
    (∀ a ∈ above, a.stage.tells = false) ∧
    ∀ x, (x = .advance who ∧ above ≠ [] ∨ ∃ c counted, x = .call who c counted) →
      m.tracer.Ignores (m.step x).tracer ∧ (m.step x).past = m.past ∧
      (∃ above', (m.step x).active who.id = above' ++ b :: below) ∧
      ∀ i, i ≠ who.id → (m.step x).active i = m.active i := by
  intro m hn hact hb hi
  have h : m.Upheld _ := (Machine.Upheld.new id s hasHandler).run xs (by omega)
  refine ⟨fun a ha => ?_, fun x hx => h.step_within hact hb hi hx⟩
  rcases h.holding.early_above hact hb hi with rfl | ⟨a', rfl, hearly⟩
  · cases ha
  · rw [List.mem_singleton.mp ha]
    exact Stage.tells_of_isEarly hearly

/-- A root is entered while the first invocation of another one is told. -/
theorem hooks_within_a_telling_are_inert_root :
    let who : OsThread := ⟨0, none⟩
    let entry (k : UInt16) : Move := .call who ⟨.rootEntry, ⟨k⟩, none⟩ true
    let xs := entry 1 :: List.replicate 4 (.advance who) ++ [entry 2]
    let m := (Machine.new (.new 0 .default true)).run xs
    (Machine.new (.new 0 .default true)).resetsIn xs < UInt64.size ∧
      ∃ a b, m.active who.id = [a] ++ b :: [] ∧ b.stage.slot? = some 0 ∧ b.stage.tells = true ∧
        m.tracer.roster.slot? who.id = some 0 ∧ m.tracer.Ignores (m.step (.advance who)).tracer ∧
        (m.run (List.replicate 3 (.advance who))).tracer.tally.guarded = 1 := by
  intro who entry xs
  have hresets : (Machine.new (.new 0 .default true)).resetsIn xs < UInt64.size := by decide +kernel
  have hinert := fun a b => hooks_within_a_telling_are_inert 0 .default true xs who [a] b [] 0 hresets
  dsimp only at hinert ⊢
  generalize hm : (Machine.new (.new 0 .default true)).run xs = m at hinert ⊢
  have hstages : (m.active who.id).map (fun a => (a.stage.slot?, a.stage.tells)) =
      [(none, false), (some 0, true)] := by rw [← hm]; decide +kernel
  have hslot : m.tracer.roster.slot? who.id = some 0 := by rw [← hm]; decide +kernel
  have hguarded : (m.run (List.replicate 3 (.advance who))).tracer.tally.guarded = 1 := by
    rw [← hm]; decide +kernel
  obtain ⟨a, rest, hact, -, hrest⟩ := List.map_eq_cons_iff.mp hstages
  obtain ⟨b, below, rfl, hb, hbelow⟩ := List.map_eq_cons_iff.mp hrest
  obtain rfl := List.map_eq_nil_iff.mp hbelow
  obtain ⟨hb, ht⟩ := Prod.mk.inj hb
  obtain ⟨-, hinert⟩ := hinert a b hact hb hslot
  exact ⟨hresets, a, b, hact, hb, ht, hslot, (hinert _ (.inl ⟨rfl, by simp⟩)).1, hguarded⟩

/-- While the entry of a root is told, all is reset and resumed. Then the entry of another root on the
same thread registers it anew, writes, and is told within the first telling. -/
theorem hook_within_a_telling_after_a_reset :
    let who : OsThread := ⟨0, none⟩
    let entry (k : UInt16) : List Move :=
      .call who ⟨.rootEntry, ⟨k⟩, none⟩ true :: List.replicate 4 (.advance who)
    let m := (Machine.new (.new 0 .default true)).run
      (entry 1 ++ [.suspend, .reset ⟨4, 8, 4⟩, .resume])
    let m' := m.run (entry 2)
    (m.active 0).map (·.stage.tells) = [true] ∧ (m'.active 0).map (·.stage.tells) = [true, true] ∧
      (m.tracer.roster.size, m.tracer.quota.remaining, m.history.length) = (0, 4, 3) ∧
      (m'.tracer.roster.size, m'.tracer.quota.remaining, m'.history.length) = (1, 3, 4) := by
  decide +kernel

end MethodTrace
