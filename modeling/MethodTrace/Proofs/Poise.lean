import MethodTrace.Proofs.Guards
import MethodTrace.Proofs.Rooted
import MethodTrace.Proofs.Writing

/-!
# What calls in progress may rely on

A call looks at its stack once, before it takes the guard, and acts on it later. In between the stack
does not change but for its guard (`Machine.Poised.expects`): calls of other threads have to do with
other stacks, and a thread's own calls cannot get past a guard that one of them holds. A stack is not
sane while a first invocation is told, since the frame of the call is announced and not yet opened;
it is what the call has made of one that was.
-/

namespace MethodTrace

namespace CallStack
variable {s : CallStack}

theorem Sane.withGuard (h : s.Sane) (g : Int32) : (s.withGuard g).Sane := ⟨h.inGraph, h.root⟩

theorem Sane.deed (h : s.Sane) {c : Call} (hc : c.hook.concerns s = true) (w : Scribe) :
    (c.deed w s).1.Sane := by
  have heffect := h.effect c w
  rwa [Call.effect, if_pos hc] at heffect

end CallStack

/-- The stacks of one roster are those of another, but for their guards. -/
def Roster.Regards (r r' : Roster) : Prop :=
  ∀ slot s', r'.stack? slot = some s' → ∃ s g, r.stack? slot = some s ∧ s' = s.withGuard g

namespace Roster

theorem Regards.trans {r r' r'' : Roster} (h : r.Regards r') (h' : r'.Regards r'') :
    r.Regards r'' := by
  intro slot s'' hs''
  obtain ⟨s', g', hs', rfl⟩ := h' slot s'' hs''
  obtain ⟨s, g, hs, rfl⟩ := h slot s' hs'
  exact ⟨s, g', hs, rfl⟩

theorem regards_modify (r : Roster) (slot : Slot) {f : CallStack → CallStack}
    (hf : ∀ s, ∃ g, f s = s.withGuard g) : r.Regards (r.modify slot f) := by
  intro slot' s' hs'
  by_cases hslot : slot' = slot
  · rw [hslot, stack?_modify_self] at hs'
    obtain ⟨s, hs, rfl⟩ := Option.map_eq_some_iff.mp hs'
    obtain ⟨g, hg⟩ := hf s
    exact ⟨s, g, hslot ▸ hs, hg⟩
  · rw [stack?_modify_of_ne hslot] at hs'
    exact ⟨s', s'.guard, hs', rfl⟩

theorem regards_foldl_modify (r : Roster) (slots : List Slot) {f : CallStack → CallStack}
    (hf : ∀ s, ∃ g, f s = s.withGuard g) :
    r.Regards (slots.foldl (fun r s => r.modify s f) r) := by
  induction slots generalizing r with
  | nil => exact fun slot s hs => ⟨s, s.guard, hs, rfl⟩
  | cons slot slots ih => exact (r.regards_modify slot hf).trans (ih _)

end Roster

namespace Call

/-- What a call in progress has found out about its stack, or made of it. -/
def Expects (c : Call) (s : CallStack) : Stage → Prop
  | .cleared .. | .guarding .. => c.hook.concerns s = true
  | .expanding _ _ o => ∃ s₀ : CallStack, s₀.Sane ∧ c.hook.concerns s₀ = true ∧
      c.hook.opening? s₀ = some o ∧ counts o s₀ = true ∧ s = o.prepare s₀
  | _ => True

variable {c : Call} {who : OsThread} {l l' : Local} {stage stage' : Stage} {slot : Slot}
  {s s' : CallStack}

theorem Expects.withGuard (h : c.Expects s stage) (g : Int32) : c.Expects (s.withGuard g) stage := by
  cases stage with
  | expanding e slot o =>
    obtain ⟨s₀, hsane, hc, ho, hcounts, rfl⟩ := h
    exact ⟨s₀.withGuard g, hsane.withGuard g, hc, ho, hcounts, (o.prepare_withGuard s₀ g).symm⟩
  | _ => exact h

/-- A call that opens a frame pauses only if its invocation counts. -/
theorem counts_of_act_expanding {t : Tracer} {e : UInt64} {fresh : Bool} {o : Opening}
    (hs : t.roster.stack? slot = some s) (hstage : (c.act t e slot fresh).2 = .expanding e slot o) :
    c.hook.opening? s = some o ∧ counts o s = true := by
  rw [act_eq hs] at hstage
  split at hstage
  · rename_i o' ho
    dsimp only at hstage
    split at hstage
    · rename_i hcounts
      unfold invoke at hstage
      split at hstage
      · cases hstage
        exact ⟨ho, hcounts⟩
      · cases hstage
    · cases hstage
  · cases hstage

/-- What a call does to its own stack when it takes the guard, acts, and drops the guard. -/
theorem Goes.expects (h : c.Goes who l stage l' stage')
    (hg : stage.guards = true ∨ stage'.guards = true) (hslot : stage.slot? = some slot)
    (hs : l.tracer.roster.stack? slot = some s) (hexpects : c.Expects s stage)
    (hsane : stage.tells = false → s.Sane) (hs' : l'.tracer.roster.stack? slot = some s') :
    c.Expects s' stage' ∧ (stage'.tells = false → s'.Sane) := by
  cases h with
  | @guard t memory epoch slot' fresh s₀ hs₀ hfree =>
    cases hslot
    cases hs.symm.trans hs₀
    have hbump : (t.modifyStack slot fun _ => s.bump).roster.stack? slot = some s.bump := by
      simp [Tracer.modifyStack, Roster.stack?_modify_self, hs]
    cases hs'.symm.trans hbump
    exact ⟨hexpects, fun _ => (hsane rfl).withGuard _⟩
  | @act t memory epoch slot' fresh =>
    cases hslot
    rcases c.act_cases epoch fresh hs with ⟨hstage, hstack, -⟩ | ⟨o, hstage, -, hstack, -⟩
    · rw [hstage]
      cases hs'.symm.trans hstack
      exact ⟨trivial, fun _ => (hsane rfl).deed hexpects _⟩
    · obtain ⟨ho, hcounts⟩ := counts_of_act_expanding hs hstage
      rw [hstage]
      cases hs'.symm.trans hstack
      exact ⟨⟨s, hsane rfl, hexpects, ho, hcounts, rfl⟩, fun htells => Bool.noConfusion htells⟩
  | @tell t memory epoch slot' o =>
    cases hslot
    obtain ⟨s₀, hsane₀, hc, ho, -, rfl⟩ := hexpects
    cases hs'.symm.trans (enter_stack hs)
    exact ⟨trivial, fun _ => hsane₀.push hc ho⟩
  | @close t memory slot' =>
    cases hslot
    have hdrop : (t.modifyStack slot CallStack.dropGuard).roster.stack? slot = some s.dropGuard := by
      simp [Tracer.modifyStack, Roster.stack?_modify_self, hs]
    cases hs'.symm.trans hdrop
    exact ⟨trivial, fun _ => (hsane rfl).withGuard _⟩
  | _ => rcases hg with hg | hg <;> cases hg

section not_guards
variable (h : c.Goes who l stage l' stage') (hg : stage.guards = false) (hg' : stage'.guards = false)
include h hg hg'

/-- A call without a guard changes no stack. -/
theorem Goes.stack?_of_not_guards (hlt : slot < l.tracer.roster.callStacks.size) :
    l'.tracer.roster.stack? slot = l.tracer.roster.stack? slot := by
  cases h with
  | @register t memory memory' epoch slot' hc _ hr | @refuse t memory memory' epoch hc _ hr =>
    rcases t.roster.register_cases who t.quota memory' with
      ⟨s', hs', heq⟩ | ⟨q', hnone, heq⟩ | heq <;> rw [heq]
    exact Roster.stack?_enlist_of_lt hlt
  | guard => cases hg'
  | act | tell | close => cases hg
  | _ => rfl

theorem Goes.expects_of_not_guards (hslot : stage'.slot? = some slot)
    (hs' : l'.tracer.roster.stack? slot = some s') : c.Expects s' stage' := by
  cases h with
  | clear hs hc =>
    cases hslot
    cases hs'.symm.trans hs
    exact hc
  | guard => cases hg'
  | act | tell | close => cases hg
  | ended => cases hslot
  | _ => exact trivial

/-- The stack that a call without a guard leaves behind is an old one, or it is new. -/
theorem Goes.sane_of_not_guards (hs' : l'.tracer.roster.stack? slot = some s') :
    l.tracer.roster.stack? slot = some s' ∨ s'.Sane := by
  by_cases hlt : slot < l.tracer.roster.callStacks.size
  · exact .inl ((h.stack?_of_not_guards hg hg' hlt).symm.trans hs')
  · rcases h.seats with hsame | ⟨-, -, -, -, hr, -, -⟩
    · exact absurd (hsame.size ▸ Roster.lt_size_of_stack? hs') hlt
    · rw [hr] at hs'
      have hle := Roster.lt_size_of_stack? hs'
      rw [Roster.enlist, Array.size_push] at hle
      obtain rfl : slot = l.tracer.roster.callStacks.size :=
        Nat.le_antisymm (Nat.le_of_lt_succ hle) (Nat.le_of_not_lt hlt)
      cases (l.tracer.roster.stack?_enlist_size who).symm.trans hs'
      exact .inr (.new _ _)

end not_guards

end Call

namespace Machine
variable {m m' : Machine}

theorem Accounted.exists_stack? (h : m.Accounted) {i : Nat} {slot : Slot} (hi : m.Concerns i slot) :
    ∃ s, m.tracer.roster.stack? slot = some s :=
  Option.ne_none_iff_exists'.mp fun hnone =>
    absurd (Roster.stack?_eq_none_iff.mp hnone) (Nat.not_le_of_lt (h.slot_lt i slot hi))

/-- What is known of the calls in progress and their stacks. -/
structure Poised (m : Machine) : Prop where
  outer : ∀ i, ∀ a ∈ (m.active i).tail, a.stage.tells = true
  expects : ∀ i, ∀ a ∈ m.active i, ∀ slot s, a.stage.slot? = some slot →
    m.tracer.roster.stack? slot = some s → a.call.Expects s a.stage
  sane : ∀ slot s, m.tracer.roster.stack? slot = some s →
    (∀ i, ∀ a ∈ m.active i, a.stage.tells = true → a.stage.slot? ≠ some slot) → s.Sane

namespace Poised

theorem new (id : Nat) (s : Settings) (hasHandler : Bool) :
    (Machine.new (.new id s hasHandler)).Poised where
  outer _ := List.forall_mem_nil _
  expects _ := List.forall_mem_nil _
  sane slot s hs := by simp [Machine.new, Tracer.new, Roster.new, Roster.stack?] at hs

/-- Moves of which no call knows, and by which no stack changes but for its guard. -/
theorem congr (h : m.Poised) (hactive : m'.active = m.active)
    (hr : m.tracer.roster.Regards m'.tracer.roster) : m'.Poised where
  outer := hactive ▸ h.outer
  expects := by
    rw [hactive]
    intro i a ha slot s' hslot hs'
    obtain ⟨s, g, hs, rfl⟩ := hr slot s' hs'
    exact (h.expects i a ha slot s hslot hs).withGuard g
  sane := by
    rw [hactive]
    intro slot s' hs' hfree
    obtain ⟨s, g, hs, rfl⟩ := hr slot s' hs'
    exact (h.sane slot s hs hfree).withGuard g

section put
variable {who : OsThread} {a b : Activity} {rest : List Activity} {l : Local} {stage : Stage}
  {slot : Slot}

/-- No other call in progress has to do with the stack of a call that has its guard or takes it. -/
theorem slot?_ne (h : m.Poised) (hacc : m.Accounted) (hact : m.active who.id = a :: rest)
    (hslot : a.stage.slot? = some slot) (hs : a.stage.guards = true ∨
      ∀ s, m.tracer.roster.stack? slot = some s → s.guarded = false) {j : Nat}
    (hb : j ≠ who.id ∧ b ∈ m.active j ∨ b ∈ rest) : b.stage.slot? ≠ some slot := by
  intro hbslot
  have ha : a ∈ m.active who.id := by rw [hact]; exact List.mem_cons_self
  obtain ⟨s, hstack⟩ := hacc.exists_stack? (i := who.id) (.inr ⟨a, ha, hslot⟩)
  obtain ⟨i, hi, hguard⟩ := hacc.guard slot s hstack
  obtain rfl : who.id = i := hi who.id (.inr ⟨a, ha, hslot⟩)
  rcases hb with ⟨hj, hb⟩ | hb
  · exact hj (hi j (.inr ⟨b, hb, hbslot⟩))
  · -- the other call tells a first invocation, so it holds the guard
    have htells : b.stage.tells = true := h.outer who.id b (by rw [hact]; exact hb)
    have hrest := one_le_weightAt hb (Stage.guards_of_tells htells) hbslot
    have hsum := weightAt_cons slot a rest
    have hnonneg := a.stage.weightAt_nonneg slot
    rw [hact] at hguard
    rcases hs with hg | hfree
    · have honce := hacc.single who.id slot
      rw [hact, hsum, Stage.weightAt_of_slot? hslot, Stage.weight_of_guards hg] at honce
      omega
    · have hfree := CallStack.guarded_eq_false_iff.mp (hfree s hstack)
      omega

/-- What a step of a call leaves alone: the stacks of all other calls in progress. -/
theorem stack?_other (h : m.Poised) (hacc : m.Accounted) (hact : m.active who.id = a :: rest)
    (hgoes : a.call.Goes who ⟨m.tracer, m.memory who.id⟩ a.stage l stage) {j : Nat}
    (hb : j ≠ who.id ∧ b ∈ m.active j ∨ b ∈ rest) (hbslot : b.stage.slot? = some slot) :
    l.tracer.roster.stack? slot = m.tracer.roster.stack? slot := by
  by_cases hg : a.stage.guards = true ∨ stage.guards = true
  · obtain ⟨slot', hslot, -, -, hr, hs, -⟩ := hgoes.reworks hg
    refine hr.others slot fun heq => ?_
    exact h.slot?_ne hacc hact hslot (hs.imp_right And.right) hb (heq ▸ hbslot)
  · rw [not_or, Bool.not_eq_true, Bool.not_eq_true] at hg
    refine hgoes.stack?_of_not_guards hg.1 hg.2 ?_
    rcases hb with ⟨-, hb⟩ | hb
    · exact hacc.slot_lt j slot (.inr ⟨b, hb, hbslot⟩)
    · exact hacc.slot_lt who.id slot (.inr ⟨b, by rw [hact]; exact List.mem_cons_of_mem a hb, hbslot⟩)

/-- The stack of a call that has its guard or takes it is sane, unless the call is telling. -/
theorem sane_self (h : m.Poised) (hacc : m.Accounted) (hact : m.active who.id = a :: rest)
    (hslot : a.stage.slot? = some slot) (hs : a.stage.guards = true ∨
      ∀ s, m.tracer.roster.stack? slot = some s → s.guarded = false)
    (ht : a.stage.tells = false) {s : CallStack} (hstack : m.tracer.roster.stack? slot = some s) :
    s.Sane := by
  refine h.sane slot s hstack fun i b hb htells => ?_
  by_cases hi : i = who.id
  · rw [hi, hact] at hb
    rcases List.mem_cons.mp hb with rfl | hb
    · rw [ht] at htells
      cases htells
    · exact h.slot?_ne hacc hact hslot hs (j := who.id) (.inr hb)
  · exact h.slot?_ne hacc hact hslot hs (.inl ⟨hi, hb⟩)

theorem mem_put_of_mem (hact : m.active who.id = a :: rest) {i : Nat} (hb : b ∈ m.active i) :
    b = a ∨ b ∈ (m.put who.id l (a.next stage ++ rest)).active i := by
  show b = a ∨ b ∈ Function.update m.active who.id (a.next stage ++ rest) i
  by_cases hi : i = who.id
  · rw [hi, Function.update_self]
    rw [hi, hact] at hb
    exact (List.mem_cons.mp hb).imp_right (List.mem_append_right _)
  · rw [Function.update_of_ne hi]
    exact .inr hb

/-- The stack of the call that goes on, if it has its guard or takes it. -/
theorem expects_self (h : m.Poised) (hacc : m.Accounted) (hact : m.active who.id = a :: rest)
    (hgoes : a.call.Goes who ⟨m.tracer, m.memory who.id⟩ a.stage l stage)
    (hg : a.stage.guards = true ∨ stage.guards = true) (hslot : a.stage.slot? = some slot)
    {s' : CallStack} (hs' : l.tracer.roster.stack? slot = some s') :
    a.call.Expects s' stage ∧ (stage.tells = false → s'.Sane) := by
  have ha : a ∈ m.active who.id := by rw [hact]; exact List.mem_cons_self
  obtain ⟨slot', hslot', -, -, hr, hs, -⟩ := hgoes.reworks hg
  cases hslot.symm.trans hslot'
  obtain ⟨s, hstack, -⟩ := hr.stack_lt hs'
  exact hgoes.expects hg hslot hstack (h.expects who.id a ha slot s hslot hstack)
    (fun ht => h.sane_self hacc hact hslot (hs.imp_right And.right) ht hstack) hs'

/-- The innermost call of a thread goes on. -/
theorem put (h : m.Poised) (hacc : m.Accounted) (hact : m.active who.id = a :: rest)
    (hgoes : a.call.Goes who ⟨m.tracer, m.memory who.id⟩ a.stage l stage) :
    (m.put who.id l (a.next stage ++ rest)).Poised := by
  have houter := h.outer who.id
  rw [hact, List.tail_cons] at houter
  refine ⟨fun i b hb => ?_, fun i b hb slot s' hslot hs' => ?_, fun slot s' hs' hfree => ?_⟩
  · change b ∈ (Function.update m.active who.id (a.next stage ++ rest) i).tail at hb
    rw [Function.update_apply] at hb
    split at hb
    · cases hover : stage.isOver with
      | true =>
        rw [Activity.next_of_isOver hover] at hb
        exact houter b (List.mem_of_mem_tail hb)
      | false =>
        rw [Activity.next_of_not_isOver hover] at hb
        exact houter b hb
    · exact h.outer i b hb
  · change l.tracer.roster.stack? slot = some s' at hs'
    have hother {j : Nat} (hb : j ≠ who.id ∧ b ∈ m.active j ∨ b ∈ rest) (hmem : b ∈ m.active j) :
        b.call.Expects s' b.stage :=
      h.expects j b hmem slot s' hslot ((h.stack?_other hacc hact hgoes hb hslot).symm.trans hs')
    rcases mem_put hb with ⟨-, hcalls⟩ | ⟨hi, hmem⟩
    · rcases List.mem_append.mp hcalls with hnext | hrest
      · obtain ⟨rfl, -⟩ := Activity.eq_of_mem_next hnext
        by_cases hg : a.stage.guards = true ∨ stage.guards = true
        · obtain ⟨slot', hslot₀, hslot', -⟩ := hgoes.reworks hg
          cases hslot' slot hslot
          exact (h.expects_self hacc hact hgoes hg hslot₀ hs').1
        · rw [not_or, Bool.not_eq_true, Bool.not_eq_true] at hg
          exact hgoes.expects_of_not_guards hg.1 hg.2 hslot hs'
      · exact hother (.inr hrest) (by rw [hact]; exact List.mem_cons_of_mem a hrest)
    · exact hother (.inl ⟨hi, hmem⟩) hmem
  · change l.tracer.roster.stack? slot = some s' at hs'
    -- an old stack that the call does not tell about
    have hold (ha : a.stage.tells = true → a.stage.slot? ≠ some slot)
        (hs : m.tracer.roster.stack? slot = some s') : s'.Sane := by
      refine h.sane slot s' hs fun i b hb htells => ?_
      have hmem : b = a ∨ b ∈ (m.put who.id l (a.next stage ++ rest)).active i :=
        mem_put_of_mem hact hb
      rcases hmem with rfl | hmem
      · exact ha htells
      · exact hfree i b hmem htells
    by_cases hg : a.stage.guards = true ∨ stage.guards = true
    · obtain ⟨slot', hslot, hslot', -, hr, -, -⟩ := hgoes.reworks hg
      by_cases heq : slot = slot'
      · subst heq
        refine (h.expects_self hacc hact hgoes hg hslot hs').2 ?_
        rw [Bool.eq_false_iff]
        intro htells
        obtain ⟨slot', hstage⟩ := Stage.exists_slot? (Stage.guards_of_tells htells)
        cases hslot' slot' hstage
        exact hfree who.id { a with stage := stage }
          (m.mem_active_put who.id l a (Stage.isOver_of_slot? hstage) rest) htells hstage
      · refine hold (fun _ hs => heq ?_) ((hr.others slot heq).symm.trans hs')
        exact Option.some.inj (hs.symm.trans hslot)
    · rw [not_or, Bool.not_eq_true, Bool.not_eq_true] at hg
      rcases hgoes.sane_of_not_guards hg.1 hg.2 hs' with hs | hsane
      · refine hold (fun htells => ?_) hs
        rw [Stage.guards_of_tells htells] at hg
        cases hg.1
      · exact hsane

end put

/-- A thread that calls a hook has no call in progress, or one that tells. -/
theorem push (h : m.Poised) (hgoing : ∀ i, ∀ a ∈ m.active i, a.stage.isOver = false) {i : Nat}
    (hr : m.ready i = true) (c : Call) (counted : Bool) :
    (m.push i ⟨c, counted, .called⟩).Poised where
  outer j a ha := by
    simp only [Machine.push, Function.update_apply] at ha
    split at ha
    · rw [List.tail_cons] at ha
      have houter := h.outer i
      have hover := hgoing i
      rw [ready] at hr
      rcases hact : m.active i with _ | ⟨b, rest⟩
      · rw [hact] at ha
        cases ha
      · rw [hact] at ha hr houter hover
        rcases List.mem_cons.mp ha with rfl | ha
        · exact Stage.tells_of_paused hr (hover a List.mem_cons_self)
        · exact houter a ha
    · exact h.outer j a ha
  expects j a ha slot s hslot hs := by
    simp only [Machine.push, Function.update_apply] at ha
    split at ha
    · rcases List.mem_cons.mp ha with rfl | ha
      · cases hslot
      · exact h.expects i a ha slot s hslot hs
    · exact h.expects j a ha slot s hslot hs
  sane slot s hs hfree := by
    refine h.sane slot s hs fun j a ha htells => hfree j a ?_ htells
    simp only [Machine.push, Function.update_apply]
    split
    · rename_i hj
      exact List.mem_cons_of_mem _ (hj ▸ ha)
    · exact ha

theorem advance (h : m.Poised) (hacc : m.Accounted) (who : OsThread) : (m.advance who).Poised := by
  rcases hact : m.active who.id with _ | ⟨a, rest⟩
  · rwa [advance_of_idle hact]
  obtain ⟨l, stage, hgoes, heq⟩ := m.proceed_goes who a rest
  rw [Machine.advance, hact]
  dsimp only
  rw [heq]
  refine (h.put hacc hact hgoes).congr rfl fun slot s hs => ⟨s, s.guard, ?_, rfl⟩
  rwa [Machine.put, Activity.settle_roster] at hs

/-- All stacks outlast a reset, and so do the calls in progress. -/
theorem step (h : m.Poised) (hacc : m.Accounted)
    (hgoing : ∀ i, ∀ a ∈ m.active i, a.stage.isOver = false) (x : Move) : (m.step x).Poised := by
  have hsame (r : Roster) : r.Regards r := fun slot s hs => ⟨s, s.guard, hs, rfl⟩
  cases x with
  | call who c counted =>
    by_cases hr : m.ready who.id = true
    · have hnote : (m.note who.id c).Poised := h.congr (by simp) (by simpa using hsame _)
      have hacc' : (m.note who.id c).Accounted := by
        refine hacc.congr (by simp) (fun j s hj => ?_) (by simp) (by simp)
        simpa only [Concerns, note_tracer, note_memory, note_active] using hj
      rw [Machine.step, m.call_eq who c counted hr]
      refine (hnote.push (by simpa using hgoing) (by simpa [ready] using hr) c counted).advance
        (hacc'.push who.id c counted) who
    · rwa [Machine.step, Machine.call, if_neg hr]
  | advance who => exact h.advance hacc who
  | suspend =>
    rcases m.suspend_cases with heq | ⟨-, heq⟩ <;> rw [Machine.step, heq]
    · exact h
    · exact h.congr rfl (Roster.regards_foldl_modify _ _ fun s => ⟨s.guard + 1, rfl⟩)
  | resume =>
    rcases m.resume_cases with heq | ⟨-, heq⟩ <;> rw [Machine.step, heq]
    · exact h
    · refine h.congr rfl (Roster.regards_foldl_modify _ _ fun s => ?_)
      unfold CallStack.release
      split
      · exact ⟨s.guard - 1, rfl⟩
      · exact ⟨s.guard, rfl⟩
  | reset l =>
    rcases hr : m.tracer.reset l with e | t
    · rwa [Machine.step, Machine.reset, hr]
    · obtain ⟨-, rfl⟩ := Tracer.reset_eq_ok hr
      rw [Machine.step, Machine.reset, hr]
      exact h.congr rfl (hsame m.tracer.roster)
  | elsewhere i r =>
    rw [Machine.step]
    split
    · exact h
    · exact h.congr rfl (hsame _)
  | drain | notify | receive | exclude | look => exact h.congr rfl (hsame m.tracer.roster)

end Poised

end Machine

end MethodTrace
