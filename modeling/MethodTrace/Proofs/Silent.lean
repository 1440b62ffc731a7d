import MethodTrace.Proofs.Ahead
import MethodTrace.Proofs.Attribution
import MethodTrace.Proofs.Reentry
import MethodTrace.Proofs.Room

/-!
# Invocations without a listener

What is known to be invoked does not depend on whether anybody listens: in a run without a listener
(`Machine.silence`) a thread does nothing that it would have done within a telling but look for its
stack, and all else goes on as before, with the frames of calls that tell open already
(`Machine.Silent`).
-/

namespace MethodTrace

/-! ### Calls in progress while nothing is reset -/

namespace Machine
variable {m m' : Machine} {n : Nat} {P : Slot → Option Opening} {i : Nat} {slot : Slot}

/-- After `n` resets, none of them while a call was in progress. -/
structure Placed (m : Machine) (n : Nat) : Prop where
  upheld : m.Upheld n
  slot : ∀ i, ∀ a ∈ m.active i, ∀ s, a.stage.slot? = some s → m.tracer.roster.slot? i = some s

namespace Placed

theorem new (id : Nat) (s : Settings) (hasHandler : Bool) :
    (Machine.new (.new id s hasHandler)).Placed 0 where
  upheld := .new id s hasHandler
  slot _ := List.forall_mem_nil _

theorem step (h : m.Placed n) (x : Move) (hidle : m.ResetsIdle x)
    (hn : (if m.resets x then n + 1 else n) < UInt64.size) :
    (m.step x).Placed (if m.resets x then n + 1 else n) := by
  refine ⟨h.upheld.step x hn, fun i b hb s hs => ?_⟩
  cases hx : m.resets x with
  | true =>
    rw [(noted_of_resets hx).2, hidle hx] at hb
    cases hb
  | false =>
    have hold (hb : b ∈ m.active i) : (m.step x).tracer.roster.slot? i = some s :=
      slot?_step hx (h.slot i b hb s hs)
    have hcalls := m.calls_step x
    generalize m.step x = m' at hold hcalls hb ⊢
    cases hcalls with
    | same heq => exact hold (heq ▸ hb)
    | call hgoes heq =>
      rw [heq, Function.update_apply] at hb
      split at hb
      · rename_i hi
        rcases List.mem_append.mp hb with hb | hb
        · obtain ⟨rfl, -⟩ := Activity.eq_of_mem_next hb
          cases hgoes <;> cases hs
        · exact hold (hi ▸ hb)
      · exact hold hb
    | @advance who a rest l stage m' hact hgoes heq hroster =>
      have ha : a ∈ m.active who.id := by
        rw [hact]
        exact List.mem_cons_self
      rw [heq, Function.update_apply] at hb
      split at hb
      · rename_i hi
        rcases List.mem_append.mp hb with hb | hb
        · obtain ⟨rfl, -⟩ := Activity.eq_of_mem_next hb
          have hturn := hgoes.turn (h.upheld.steady.going who.id a ha)
            (h.upheld.mindful.minds who.id).recalls
          rw [hi, hroster]
          exact hturn.slot? (h.slot who.id a ha) s hs
        · refine hold ?_
          rw [hi, hact]
          exact List.mem_cons_of_mem a hb
      · exact hold hb

/-- A thread has one call in progress, or one more within a telling. -/
theorem stacked (h : m.Placed n) (i : Nat) : Stacked (m.active i) := by
  have hgoing (a : Activity) (ha : a ∈ m.active i) :
      a.stage.isEarly = true ∨ a.stage.guards = true := by
    have hover := h.upheld.steady.going i a ha
    revert hover
    cases a.stage <;> simp [Stage.isOver, Stage.isEarly, Stage.guards]
  have hyields := h.upheld.holding.yields i
  rcases List.eq_nil_or_concat (m.active i) with hact | ⟨above, b, hact⟩
  · rw [hact]
    exact .none
  rw [List.concat_eq_append] at hact
  have hb : b ∈ m.active i := by
    rw [hact]
    exact List.mem_append_right _ List.mem_cons_self
  rcases above with _ | ⟨a, above⟩
  · rw [hact]
    exact .one (hgoing b hb)
  · rw [hact] at hyields
    have htells : b.stage.tells = true :=
      ((List.pairwise_append.mp hyields).2.2 a List.mem_cons_self b List.mem_cons_self).1
    obtain ⟨s, hs⟩ := Stage.exists_slot? (Stage.guards_of_tells htells)
    have hact' : m.active (⟨i, none⟩ : OsThread).id = a :: above ++ b :: [] := hact
    rcases h.upheld.holding.early_above hact' hs (h.slot i b hb s hs) with
      habove | ⟨a', habove, hearly⟩
    · cases habove
    · cases habove
      rw [hact]
      exact .two hearly htells

end Placed

/-! ### Moves where nobody listens -/

/-- A move where nobody listens. What a thread does within a telling is left out, and that the telling
ends; but a hook that is called within it looks for the stack of its thread. -/
def silently (m : Machine) : Move → Option Move
  | .call who c counted => if (m.active who.id).isEmpty then some (.call who c counted) else none
  | .advance who =>
    match m.active who.id with
    | [] => none
    | [a] => if a.stage.tells then none else some (.advance who)
    | a :: _ =>
      match a.stage with
      | .running _ => some (.look who.id)
      | _ => none
  | x => some x

/-- A run where nobody listens. -/
def silence (m : Machine) : List Move → List Move
  | [] => []
  | x :: xs => (m.silently x).toList ++ (m.step x).silence xs

end Machine

def Activity.silent (a : Activity) : Activity := { a with stage := a.stage.silent }

namespace Machine
variable {m m' : Machine} {n : Nat} {P : Slot → Option Opening} {i : Nat} {slot : Slot}

/-- The second machine is the first where nobody listens: the outermost call of a thread goes on
there, and no others are made. -/
structure Silent (P : Slot → Option Opening) (m m' : Machine) : Prop where
  tracer : m.tracer.Ahead P m'.tracer
  memory : m'.memory = m.memory
  active : ∀ i, m'.active i = ((m.active i).getLast?.map Activity.silent).toList
  announced : ∀ i a, (m.active i).getLast? = some a → ∀ slot, a.stage.slot? = some slot →
    P slot = a.stage.opening?
  announcer : ∀ slot o, P slot = some o →
    ∃ i, ∃ a ∈ m.active i, a.stage.tells = true ∧ a.stage.slot? = some slot
  off : (m'.tracer.expandOnFirstInvoke && m'.tracer.hasHandler) = false

namespace Silent

theorem expands (h : Silent P m m') (k : MethodId) : m'.tracer.expands k = false := by
  rw [Tracer.expands, Bool.and_assoc, h.off, Bool.and_false]

/-- Moves that concern no call. -/
theorem congr (h : Silent P m m') {m₁ m₁' : Machine} (ht : m₁.tracer.Ahead P m₁'.tracer)
    (hmemory : m₁'.memory = m₁.memory) (hactive : m₁.active = m.active)
    (hactive' : m₁'.active = m'.active)
    (hoff : (m₁'.tracer.expandOnFirstInvoke && m₁'.tracer.hasHandler) = false) :
    Silent P m₁ m₁' where
  tracer := ht
  memory := hmemory
  active := by
    rw [hactive, hactive']
    exact h.active
  announced := by
    rw [hactive]
    exact h.announced
  announcer := by
    rw [hactive]
    exact h.announcer
  off := hoff

theorem off_step (h : Silent P m m') (x : Move) :
    ((m'.step x).tracer.expandOnFirstInvoke && (m'.step x).tracer.hasHandler) = false := by
  obtain ⟨-, hexpand, hhandler⟩ := m'.flags_step x
  rw [hexpand, hhandler]
  exact h.off

/-- Nothing is announced for a call that does not tell. -/
theorem quiet (h : Silent P m m') {a : Activity} (ha : (m.active i).getLast? = some a)
    (ht : a.stage.tells = false) (hs : a.stage.slot? = some slot) : P slot = none := by
  rw [h.announced i a ha slot hs]
  revert ht
  cases a.stage <;> first | (intro _; rfl) | (intro ht; cases ht)

/-- Nothing is announced for the next thread that registers. -/
theorem quiet_size (h : Silent P m m') (hp : m.Placed n) :
    P m.tracer.roster.callStacks.size = none := by
  rcases ho : P m.tracer.roster.callStacks.size with _ | o
  · rfl
  · obtain ⟨i, b, hb, -, hslot⟩ := h.announcer _ o ho
    exact absurd (hp.upheld.holding.slot_lt i b hb _ hslot) (Nat.lt_irrefl _)

/-- What happens within a telling. -/
theorem within (h : Silent P m m') {who : OsThread} (above calls : List Activity) {rest : List Activity}
    {t : Tracer} (hact : m.active who.id = above ++ rest) (hne : rest ≠ [])
    (habove : ∀ a ∈ above, a.stage.tells = false) (ht : t.Ahead P m'.tracer) (memory : Memory) :
    Silent P (m.put who.id ⟨t, memory⟩ (calls ++ rest)) (m'.remember who.id memory) := by
  have hlast (i : Nat) : ((m.put who.id ⟨t, memory⟩ (calls ++ rest)).active i).getLast? =
      (m.active i).getLast? := by
    show (Function.update m.active who.id (calls ++ rest) i).getLast? = _
    rw [Function.update_apply]
    split
    · rename_i hi
      rw [hi, hact, List.getLast?_append_of_ne_nil _ hne, List.getLast?_append_of_ne_nil _ hne]
    · rfl
  refine ⟨ht, ?_, fun i => ?_, fun i a ha => ?_, fun slot o ho => ?_, h.off⟩
  · show Function.update m'.memory who.id memory = Function.update m.memory who.id memory
    rw [h.memory]
  · rw [hlast]
    exact h.active i
  · rw [hlast] at ha
    exact h.announced i a ha
  · obtain ⟨i, a, ha, htells, hslot⟩ := h.announcer slot o ho
    refine ⟨i, a, ?_, htells, hslot⟩
    show a ∈ Function.update m.active who.id (calls ++ rest) i
    rw [Function.update_apply]
    split
    · rename_i hi
      rw [hi, hact] at ha
      rcases List.mem_append.mp ha with ha | ha
      · rw [habove a ha] at htells
        cases htells
      · exact List.mem_append_right _ ha
    · exact ha

/-- A hook that is called within a telling. -/
theorem call_within (h : Silent P m m') {who : OsThread} (hne : m.active who.id ≠ []) (c : Call)
    (counted : Bool) : Silent P (m.step (.call who c counted)) m' := by
  by_cases hr : m.ready who.id = true
  · obtain ⟨l, stage, hgoes, heq⟩ := call_goes c counted hr
    have hnote : m.note who.id c = m := if_neg (by simpa using hne)
    have hl : l = ⟨m.tracer, m.memory who.id⟩ := by cases hgoes <;> rfl
    have hwithin := h.within [] ((⟨c, counted, .called⟩ : Activity).next stage) rfl hne
      (List.forall_mem_nil _) (h.tracer.settle ⟨c, counted, .called⟩ stage) (m.memory who.id)
    have hsame : m'.remember who.id (m.memory who.id) = m' := by
      rw [remember, ← h.memory, Function.update_eq_self]
    rw [hsame] at hwithin
    rw [heq, hnote, hl]
    exact hwithin
  · rwa [step, Machine.call, if_neg hr]

/-- Its next step. -/
theorem advance_within (h : Silent P m m') (hp : m.Placed n) {who : OsThread} {a b : Activity}
    (hact : m.active who.id = [a, b]) (hb : b.stage.tells = true) :
    Silent P (m.step (.advance who))
      (m'.remember who.id (a.stage.memoryAfter m.tracer.roster who.id (m.memory who.id))) := by
  obtain ⟨slot, hslot⟩ := Stage.exists_slot? (Stage.guards_of_tells hb)
  have hmem : b ∈ m.active who.id := by
    rw [hact]
    exact List.mem_cons_of_mem a List.mem_cons_self
  have hstacked := hp.stacked who.id
  rw [hact] at hstacked
  obtain ⟨stage, memory, -, rfl, heq⟩ :=
    hp.upheld.advance_within hact hslot (hp.slot who.id b hmem slot hslot)
  rw [heq]
  refine h.within [a] (a.next stage) hact (List.cons_ne_nil b []) (fun a' ha' => ?_)
    (h.tracer.settle a stage) _
  rw [List.mem_singleton.mp ha']
  cases hstacked with
  | two hearly => exact Stage.tells_of_isEarly hearly

section put
variable {who : OsThread} {a : Activity} {l : Local} {stage : Stage} {P' : Slot → Option Opening}

/-- The outermost call of a thread goes on. -/
theorem put (h : Silent P m m') (hact : m.active who.id = [a])
    (hp : (m.put who.id l (a.next stage ++ [])).Placed n)
    (hself : ∀ s, stage.slot? = some s → P' s = stage.opening?)
    (hothers : ∀ s, stage.slot? ≠ some s → P' s = P s)
    (hleft : ∀ s, a.stage.slot? = some s → stage.slot? ≠ some s → P s = none) {m₁ : Machine}
    (ht : l.tracer.Ahead P' m₁.tracer)
    (hmemory : m₁.memory = Function.update m.memory who.id l.memory)
    (hactive : m₁.active = Function.update m'.active who.id (a.silent.next stage.silent))
    (hoff : (m₁.tracer.expandOnFirstInvoke && m₁.tracer.hasHandler) = false) :
    Silent P' (m.put who.id l (a.next stage ++ [])) m₁ := by
  obtain ⟨limit, hseated⟩ := hp.upheld.seated
  have hmem (i : Nat) (b : Activity) (hb : b ∈ (m.put who.id l (a.next stage ++ [])).active i) :
      i = who.id ∧ b = { a with stage := stage } ∧ stage.isOver = false ∨
        i ≠ who.id ∧ b ∈ m.active i := by
    rcases mem_put hb with ⟨hi, hb⟩ | hb
    · rw [List.append_nil] at hb
      exact .inl ⟨hi, Activity.eq_of_mem_next hb⟩
    · exact .inr hb
  refine ⟨ht, hmemory, fun i => ?_, fun i b hb s hs => ?_, fun s o ho => ?_, hoff⟩
  · show m₁.active i = ((Function.update m.active who.id (a.next stage ++ []) i).getLast?.map
      Activity.silent).toList
    rw [hactive, Function.update_apply, Function.update_apply]
    split
    · cases stage <;> rfl
    · exact h.active i
  · rcases hmem i b (List.mem_of_getLast? hb) with ⟨-, rfl, -⟩ | ⟨hi, hmem⟩
    · exact hself s hs
    · -- another thread has another slot
      have hne : stage.slot? ≠ some s := fun hstage => by
        have hmem' := m.mem_active_put who.id l a (Stage.isOver_of_slot? hstage) []
        exact hi (hseated.slot?_inj (hp.slot i b (List.mem_of_getLast? hb) s hs)
          (hp.slot who.id _ hmem' s hstage))
      rw [hothers s hne]
      refine h.announced i b ?_ s hs
      change (Function.update m.active who.id _ i).getLast? = some b at hb
      rwa [Function.update_of_ne hi] at hb
  · by_cases hstage : stage.slot? = some s
    · rw [hself s hstage] at ho
      have htells : stage.tells = true := by
        cases stage <;> first | rfl | cases ho
      exact ⟨who.id, _, m.mem_active_put who.id l a (Stage.isOver_of_slot? hstage) [], htells, hstage⟩
    · rw [hothers s hstage] at ho
      obtain ⟨i, b, hb, htells, hslot⟩ := h.announcer s o ho
      refine ⟨i, b, ?_, htells, hslot⟩
      show b ∈ Function.update m.active who.id _ i
      by_cases hi : i = who.id
      · rw [hi, hact] at hb
        rw [List.mem_singleton.mp hb] at hslot
        rw [hleft s hslot hstage] at ho
        cases ho
      · rwa [Function.update_of_ne hi]

end put

/-- A call that does not tell goes on in either machine. -/
theorem advance (h : Silent P m m') (hp : m.Placed n) {who : OsThread} {a : Activity}
    (hact : m.active who.id = [a]) (ht : a.stage.tells = false) {n' : Nat}
    (hp' : (m.step (.advance who)).Placed n') :
    ∃ P', Silent P' (m.step (.advance who)) (m'.step (.advance who)) := by
  have hsilent : a.silent = a := by rw [Activity.silent, Stage.silent_of_not_tells ht]
  have hact' : m'.active who.id = [a] := by
    rw [h.active, hact]
    exact congrArg (fun a => [a]) hsilent
  have ha : (m.active who.id).getLast? = some a := by rw [hact]; rfl
  have hoff := h.off_step (.advance who)
  obtain ⟨hmemory, hstage, hahead⟩ := a.call.advance_ahead who h.tracer h.expands (m.memory who.id) ht
    (fun _ hs => h.quiet ha ht hs) (h.quiet_size hp)
  simp only [step, Machine.advance, hact, hact', proceed, h.memory] at hp' hoff ⊢
  generalize a.call.advance who ⟨m.tracer, m.memory who.id⟩ a.stage = x,
    a.call.advance who ⟨m'.tracer, m.memory who.id⟩ a.stage = x' at hmemory hstage hahead hp' hoff ⊢
  obtain ⟨⟨t, memory⟩, stage⟩ := x
  obtain ⟨⟨t', memory'⟩, stage'⟩ := x'
  dsimp only at hmemory hstage hahead hp' hoff ⊢
  obtain rfl := hmemory
  obtain rfl := hstage
  refine ⟨stage.announce P, h.put hact hp' (fun s hs => ?_) (fun s hs => ?_) (fun s hs _ => h.quiet ha ht hs)
    ((hahead.settle a stage).settle' a stage.silent) ?_ ?_ hoff⟩
  · cases hannounced : stage.tells with
    | true =>
      cases stage with
      | expanding epoch slot o =>
        cases hs
        exact Function.update_self ..
      | _ => cases hannounced
    | false =>
      have hopening : stage.opening? = none ∧ stage.announce P = P := by
        cases stage <;> first | exact ⟨rfl, rfl⟩ | cases hannounced
      rw [hopening.1, hopening.2]
      rcases ho : P s with _ | o
      · rfl
      · -- whoever tells with this slot is another thread, which has another slot
        obtain ⟨i, b, hb, htells, hslot⟩ := h.announcer s o ho
        have hi : i ≠ who.id := by
          rintro rfl
          rw [hact] at hb
          rw [List.mem_singleton.mp hb, ht] at htells
          cases htells
        obtain ⟨limit, hseated⟩ := hp'.upheld.seated
        refine absurd (hseated.slot?_inj (hp'.slot i b ?_ s hslot)
          (hp'.slot who.id { a with stage := stage } ?_ s hs)) hi
        · show b ∈ Function.update m.active who.id _ i
          rwa [Function.update_of_ne hi]
        · exact m.mem_active_put who.id _ a (Stage.isOver_of_slot? hs) []
  · cases stage with
    | expanding epoch slot o => exact Function.update_of_ne (fun heq => hs (congrArg some heq.symm)) ..
    | _ => rfl
  · show Function.update m'.memory who.id memory' = _
    rw [h.memory]
  · show Function.update m'.active who.id (a.next stage.silent ++ []) = _
    rw [List.append_nil, hsilent]

/-- The frame that has been announced is opened; it has been open where nobody listens. -/
theorem tell (h : Silent P m m') {who : OsThread} {a : Activity} (hact : m.active who.id = [a])
    (ht : a.stage.tells = true) {n' : Nat} (hp' : (m.step (.advance who)).Placed n') :
    ∃ P', Silent P' (m.step (.advance who)) m' := by
  obtain ⟨c, counted, stage⟩ := a
  cases stage with
  | expanding epoch slot o =>
    have hlast : (m.active who.id).getLast? = some ⟨c, counted, .expanding epoch slot o⟩ := by
      rw [hact]
      rfl
    have hslot : P slot = some o := h.announced who.id _ hlast slot rfl
    have htouches : m.tracer.Touches slot epoch (c.enter m.tracer epoch slot o) := Call.enter_touches ..
    have hahead : (c.enter m.tracer epoch slot o).Ahead (Function.update P slot none) m'.tracer := by
      refine ⟨?_, ?_, ?_, h.tracer.roster.update htouches.roster rfl htouches.size rfl htouches.others
        (fun _ _ => rfl) ?_⟩
      · rw [Call.enter_invoked, h.tracer.invoked]
      · rw [htouches.quota, h.tracer.quota]
      · rw [htouches.suspension, h.tracer.suspension]
      · rw [h.tracer.roster.stack, hslot, Call.enter_stack?, Option.map_map]
        rfl
    simp only [step, Machine.advance, hact, proceed, Call.advance] at hp' ⊢
    refine ⟨_, h.put hact hp' (fun s hs => ?_) (fun s hs => ?_) (fun s hs hs' => absurd hs hs')
      hahead ?_ ?_ h.off⟩
    · cases hs
      exact Function.update_self ..
    · exact Function.update_of_ne (fun heq => hs (congrArg some heq.symm)) ..
    · rw [h.memory, Function.update_eq_self]
    · funext i
      rw [Function.update_apply]
      split
      · rename_i hi
        rw [hi, h.active, hact]
        rfl
      · rfl
  | _ => cases ht

theorem suspend (h : Silent P m m') : Silent P (m.step .suspend) (m'.step .suspend) := by
  have hsuspension := h.tracer.suspension
  have hslots : m'.tracer.roster.slots = m.tracer.roster.slots := by
    rw [h.tracer.roster.same]
    rfl
  cases hs : m.tracer.suspension.suspended with
  | true => rwa [step_suspend_of_suspended hs, step_suspend_of_suspended (hsuspension ▸ hs)]
  | false =>
    have hs' : m'.tracer.suspension.suspended = false := hsuspension ▸ hs
    have hahead : (Suspension.bumpAll m.tracer.roster m.tracer.roster.slots).Ahead P
        (Suspension.bumpAll m'.tracer.roster m'.tracer.roster.slots) :=
      hslots ▸ h.tracer.roster.foldl_modify _ (CallStack.open?_withGuard (· + 1))
    have hoff := h.off_step .suspend
    rw [step_suspend_of_running hs'] at hoff
    rw [step_suspend_of_running hs, step_suspend_of_running hs']
    refine h.congr ⟨h.tracer.invoked, h.tracer.quota, ?_, hahead⟩ h.memory rfl rfl hoff
    rw [hsuspension, hslots]

theorem resume (h : Silent P m m') : Silent P (m.step .resume) (m'.step .resume) := by
  have hsuspension := h.tracer.suspension
  cases hs : m.tracer.suspension.suspended with
  | false => rwa [step_resume_of_running hs, step_resume_of_running (hsuspension ▸ hs)]
  | true =>
    have hs' : m'.tracer.suspension.suspended = true := hsuspension ▸ hs
    have hahead : (Suspension.releaseAll m.tracer.roster m.tracer.suspension.held).Ahead P
        (Suspension.releaseAll m'.tracer.roster m'.tracer.suspension.held) :=
      hsuspension ▸ h.tracer.roster.foldl_modify _ CallStack.open?_release
    have hoff := h.off_step .resume
    rw [step_resume_of_suspended hs'] at hoff
    rw [step_resume_of_suspended hs, step_resume_of_suspended hs']
    refine h.congr ⟨h.tracer.invoked, h.tracer.quota, ?_, hahead⟩ h.memory rfl rfl hoff
    rw [hsuspension]

theorem reset (h : Silent P m m') (l : Settings.Limits) :
    Silent P (m.step (.reset l)) (m'.step (.reset l)) := by
  have hsuspension := h.tracer.suspension
  cases hs : m.tracer.suspension.suspended with
  | true =>
    have hs' : m'.tracer.suspension.suspended = true := hsuspension ▸ hs
    have hoff := h.off_step (.reset l)
    rw [step_reset hs' l] at hoff
    rw [step_reset hs l, step_reset hs' l]
    refine h.congr ⟨rfl, rfl, hsuspension, ?_, h.tracer.roster.size, h.tracer.roster.stack⟩ h.memory
      rfl rfl hoff
    show m'.tracer.roster.clear = _
    rw [h.tracer.roster.same]
    rfl
  | false =>
    have herror {m : Machine} (hs : m.tracer.suspension.suspended = false) :
        m.step (.reset l) = m := by
      simp only [Machine.step, Machine.reset, Tracer.reset, hs, Bool.false_eq_true, ↓reduceIte]
    rwa [herror hs, herror (hsuspension ▸ hs)]

/-- Moves that concern all calls, or none. -/
theorem control (h : Silent P m m') {x : Move} (hmover : x.mover? = none) :
    Silent P (m.step x) (m'.step x) := by
  have hsame := h.tracer.roster.same
  have hsuspension := h.tracer.suspension
  have hoff := h.off_step x
  cases x with
  | call | advance => cases hmover
  | suspend => exact h.suspend
  | resume => exact h.resume
  | reset l => exact h.reset l
  | exclude i =>
    refine h.congr ⟨h.tracer.invoked, h.tracer.quota, hsuspension, ?_, h.tracer.roster.size,
      h.tracer.roster.stack⟩ ?_ rfl rfl hoff
    · show (m'.tracer.roster.exclude i).1 = _
      rw [hsame]
      rfl
    · show Function.update m'.memory i (m'.tracer.roster.exclude i).2 = _
      rw [h.memory, hsame]
      rfl
  | look i =>
    refine h.congr h.tracer ?_ rfl rfl hoff
    show Function.update m'.memory i (m'.tracer.look i (m'.memory i)).2 = _
    rw [Tracer.look_memory, h.tracer.roster.consult, h.memory, ← Tracer.look_memory]
    rfl
  | elsewhere i r =>
    have hid : m'.tracer.roster.id = m.tracer.roster.id := by rw [hsame]
    simp only [step, hid]
    split
    · exact h
    · refine h.congr h.tracer ?_ rfl rfl h.off
      show Function.update m'.memory i (some r) = _
      rw [h.memory]
      rfl
  | drain | notify | receive =>
    exact h.congr ⟨h.tracer.invoked, h.tracer.quota, hsuspension, h.tracer.roster⟩ h.memory rfl rfl hoff

/-- A thread that has no call in progress calls a hook. -/
theorem call (h : Silent P m m') {who : OsThread} (hidle : m.active who.id = []) (c : Call)
    (counted : Bool) : Silent P (m.step (.call who c counted)) (m'.step (.call who c counted)) := by
  have hidle' : m'.active who.id = [] := by
    rw [h.active, hidle]
    rfl
  have hready : m.ready who.id = true := ready_of_idle hidle
  have hready' : m'.ready who.id = true := ready_of_idle hidle'
  obtain ⟨stage, hslot, hsilent, hadvance⟩ : ∃ stage : Stage, stage.slot? = none ∧ stage.silent = stage ∧
      ∀ t : Tracer, t.suspension = m.tracer.suspension → ∀ memory,
        c.advance who ⟨t, memory⟩ .called = (⟨t, memory⟩, stage) := by
    rcases hopen : m.tracer.suspension.openEpoch with _ | epoch
    · exact ⟨.returned (.error .suspended), rfl, rfl, fun t ht _ => by
        simp only [Call.advance, ht, hopen]⟩
    · exact ⟨.running epoch, rfl, rfl, fun t ht _ => by simp only [Call.advance, ht, hopen]⟩
  have hstep {m₀ : Machine} (hr : m₀.ready who.id = true)
      (hs : m₀.tracer.suspension = m.tracer.suspension) : m₀.step (.call who c counted) =
        (m₀.note who.id c).put who.id
          ⟨(⟨c, counted, .called⟩ : Activity).settle m₀.tracer stage, m₀.memory who.id⟩
          ((⟨c, counted, .called⟩ : Activity).next stage ++ m₀.active who.id) := by
    simp only [Machine.step, Machine.call, hr, ↓reduceIte, proceed, note_tracer, note_memory,
      hadvance _ hs]
  rw [hstep hready rfl, hstep hready' h.tracer.suspension, hidle, hidle', List.append_nil]
  refine ⟨(h.tracer.settle _ _).settle' _ _, ?_, fun i => ?_, fun i a ha slot hs => ?_, fun slot o ho => ?_,
    ?_⟩
  · show Function.update (m'.note who.id c).memory _ _ = Function.update (m.note who.id c).memory _ _
    rw [note_memory, note_memory, h.memory]
  · show Function.update (m'.note who.id c).active _ _ i =
      ((Function.update (m.note who.id c).active _ _ i).getLast?.map Activity.silent).toList
    rw [note_active, note_active, Function.update_apply, Function.update_apply]
    split
    · cases hover : stage.isOver with
      | true =>
        rw [Activity.next_of_isOver hover]
        rfl
      | false =>
        rw [Activity.next_of_not_isOver hover]
        show [Activity.mk c counted stage] = [Activity.mk c counted stage.silent]
        rw [hsilent]
    · exact h.active i
  · change (Function.update (m.note who.id c).active _ _ i).getLast? = some a at ha
    rw [note_active, Function.update_apply] at ha
    split at ha
    · obtain ⟨rfl, -⟩ := Activity.eq_of_mem_next (List.mem_of_getLast? ha)
      rw [hslot] at hs
      cases hs
    · exact h.announced i a ha slot hs
  · obtain ⟨i, a, ha, htells, hslot⟩ := h.announcer slot o ho
    refine ⟨i, a, ?_, htells, hslot⟩
    show a ∈ Function.update (m.note who.id c).active _ _ i
    rw [note_active, Function.update_of_ne]
    · exact ha
    · rintro rfl
      rw [hidle] at ha
      cases ha
  · show (((⟨c, counted, .called⟩ : Activity).settle m'.tracer stage).expandOnFirstInvoke &&
      ((⟨c, counted, .called⟩ : Activity).settle m'.tracer stage).hasHandler) = false
    rw [Activity.settle_eq]
    exact h.off

theorem step (h : Silent P m m') (hp : m.Placed n) {x : Move} {n' : Nat} (hp' : (m.step x).Placed n') :
    ∃ P', Silent P' (m.step x) (m'.run (m.silently x).toList) := by
  cases x with
  | call who c counted =>
    by_cases hidle : m.active who.id = []
    · have hsilently : m.silently (.call who c counted) = some (.call who c counted) := by
        rw [silently, hidle]
        rfl
      rw [hsilently]
      exact ⟨P, h.call hidle c counted⟩
    · have hsilently : m.silently (.call who c counted) = none := by
        rw [silently, if_neg (by simpa using hidle)]
      rw [hsilently]
      exact ⟨P, h.call_within hidle c counted⟩
  | advance who =>
    have hstacked := hp.stacked who.id
    rcases hact : m.active who.id with _ | ⟨a, _ | ⟨b, rest⟩⟩
    · have hsilently : m.silently (.advance who) = none := by rw [silently, hact]
      rw [hsilently, Machine.step, advance_of_idle hact]
      exact ⟨P, h⟩
    · cases ht : a.stage.tells with
      | true =>
        have hsilently : m.silently (.advance who) = none := by
          simp only [silently, hact, ht, ↓reduceIte]
        rw [hsilently]
        exact h.tell hact ht hp'
      | false =>
        have hsilently : m.silently (.advance who) = some (.advance who) := by
          simp only [silently, hact, ht, Bool.false_eq_true, ↓reduceIte]
        rw [hsilently]
        exact h.advance hp hact ht hp'
    · rw [hact] at hstacked
      cases hstacked with
      | two ha hb =>
        refine ⟨P, ?_⟩
        have hwithin := h.advance_within hp hact hb
        obtain ⟨c, counted, stage⟩ := a
        cases stage with
        | running epoch =>
          have hsilently : m.silently (.advance who) = some (.look who.id) := by
            simp only [silently, hact]
          have hlook : m'.step (.look who.id) = m'.remember who.id
              (m.tracer.roster.consult who.id (m.memory who.id)).2 := by
            rw [Machine.step, Tracer.look_memory, h.tracer.roster.consult, h.memory]
          rw [hsilently, Option.toList_some, run_cons, run_nil, hlook]
          exact hwithin
        | _ =>
          have hsilently : m.silently (.advance who) = none := by simp only [silently, hact]
          have hsame : m'.remember who.id (m.memory who.id) = m' := by
            rw [remember, ← h.memory, Function.update_eq_self]
          rw [hsilently, Option.toList_none, run_nil, ← hsame]
          exact hwithin
  | _ => exact ⟨P, h.control rfl⟩

theorem run (h : Silent P m m') (hp : m.Placed n) {xs : List Move}
    (hidle : m.Along ResetsIdle xs)
    (hn : n + m.resetsIn xs < UInt64.size) : ∃ P', Silent P' (m.run xs) (m'.run (m.silence xs)) := by
  induction xs generalizing m m' n P with
  | nil => exact ⟨P, h⟩
  | cons x xs ih =>
    rw [add_resetsIn_cons] at hn
    obtain ⟨hx, hxs⟩ := hidle
    have hp' := hp.step x hx (Nat.lt_of_le_of_lt (Nat.le_add_right _ _) hn)
    obtain ⟨P', h'⟩ := h.step hp hp'
    rw [silence, run_append, run_cons]
    exact ih h' hp' hxs hn

theorem new (id : Nat) (s : Settings) (hasHandler expand hears : Bool)
    (hoff : (expand && hears) = false) : Silent (fun _ => none) (.new (.new id s hasHandler))
      (.new (.new id { s with expandOnFirstInvoke := expand } hears)) where
  tracer := ⟨rfl, rfl, rfl, .refl _⟩
  memory := rfl
  active _ := rfl
  announced i a ha := by cases ha
  announcer slot o ho := by cases ho
  off := hoff

end Silent

end Machine

/-- Whatever is done while a first invocation is told, and however the telling ends: who listens is
told of no method twice since the last reset, and has been told of those that are known to be invoked.
If all is reset only while no call is in progress, these are, whenever no call is in progress, the
methods of the frames that have been opened as roots or below active roots since then, be they
recorded or not, and whether or not anybody listens. Where nobody listens the same run knows of the
same methods, as long as generations do not come back. -/
theorem first_invocations_are_told_once (id : Nat) (s : Settings) (hasHandler : Bool) (xs : List Move)
    (hidle : (Machine.new (.new id s hasHandler)).Along Machine.ResetsIdle xs) :
    let n := (Invocations.new (.new (.new id s hasHandler))).run xs
    let m := (Machine.new (.new id s hasHandler)).run xs
    n.machine = m ∧
    (s.expandOnFirstInvoke = true ∧ hasHandler = true → n.told.Nodup ∧
      (∀ k, m.tracer.invoked.contains k = true ↔ k ∈ n.told) ∧
      m.tracer.invoked.size = n.told.length) ∧
    (¬(s.expandOnFirstInvoke = true ∧ hasHandler = true) → n.told = []) ∧
    ((∀ i, m.active i = []) → (∀ k, m.tracer.invoked.contains k = true ↔ k ∈ n.opened) ∧
      (s.expandOnFirstInvoke = true ∧ hasHandler = true → ∀ k, k ∈ n.told ↔ k ∈ n.opened)) ∧
    ((Machine.new (.new id s hasHandler)).resetsIn xs < UInt64.size →
      ∀ expand hears, (expand && hears) = false →
        ((Machine.new (.new id { s with expandOnFirstInvoke := expand } hears)).run
          ((Machine.new (.new id s hasHandler)).silence xs)).tracer.invoked = m.tracer.invoked) := by
  intro n m
  have hm : n.machine = m := Invocations.run_machine ..
  have hsound : n.Sound s hasHandler := (Invocations.Sound.new id s hasHandler).run xs
  have hkept : n.Kept :=
    (Invocations.Kept.of_idle rfl fun _ => rfl).run (.new id s hasHandler) hidle
  have hheard (hon : s.expandOnFirstInvoke = true ∧ hasHandler = true) : n.Heard :=
    (Invocations.Heard.of_empty rfl).run (.new id s hasHandler) hon xs
  refine ⟨hm, fun hon => ?_, fun hoff => ?_, fun hactive => ?_, fun hn expand hears hoff => ?_⟩
  · obtain ⟨honce, hmem, hsize⟩ := hheard hon
    exact ⟨honce, hm ▸ hmem, hm ▸ hsize⟩
  · exact Invocations.told_run rfl (.new id s hasHandler) hoff xs
  · rw [← hm] at hactive ⊢
    have hopened := hkept.contains_iff hactive
    exact ⟨hopened, fun hon k => ((hheard hon).mem k).symm.trans (hopened k)⟩
  · obtain ⟨P, hsilent⟩ := (Machine.Silent.new id s hasHandler expand hears hoff).run
      (.new id s hasHandler) hidle (by rwa [Nat.zero_add])
    exact hsilent.tracer.invoked

/-- A method is told of before and after all is reset. Then, while it is told of, its thread calls a
hook, and another thread opens a frame of the same method and a marker outside it. -/
theorem first_invocations_are_told_once_since_a_reset :
    let first : OsThread := ⟨0, none⟩
    let second : OsThread := ⟨1, none⟩
    let call (who : OsThread) (h : Hook) (k : UInt16) (n : Nat) : List Move :=
      .call who ⟨h, ⟨k⟩, none⟩ true :: List.replicate n (.advance who)
    let before := call first .rootEntry 1 6 ++ [.suspend]
    let after := .resume :: call second .markerEntry 2 5 ++ call first .rootEntry 1 4 ++
      call first .rootEntry 3 3 ++ call second .rootEntry 1 5 ++ [.advance first, .advance first]
    let xs := before ++ .reset ⟨10, 4, 8⟩ :: after
    let n := (Invocations.new (.new (.new 0 .default true))).run xs
    let m := (Machine.new (.new 0 .default true)).run xs
    (Machine.new (.new 0 .default true)).Along Machine.ResetsIdle xs ∧ (∀ i, m.active i = []) ∧
      n.told = [⟨1⟩] ∧ n.opened = [⟨1⟩, ⟨1⟩] ∧ m.tracer.invoked.size = 1 ∧
      ∀ k, m.tracer.invoked.contains k = true ↔ k = ⟨1⟩ := by
  intro first second call before after xs
  have hbefore : ∀ i, ((Machine.new (.new 0 .default true)).run before).active i = [] :=
    Machine.idle_run [0] (by decide) (fun _ _ => rfl) (by decide +kernel)
  have hidle : (Machine.new (.new 0 .default true)).Along Machine.ResetsIdle xs :=
    Machine.along_append (Machine.along_resetsIdle (by decide))
      ⟨fun _ => hbefore, Machine.along_resetsIdle (by decide)⟩
  have hactive : ∀ i, ((Machine.new (.new 0 .default true)).run xs).active i = [] :=
    Machine.idle_run [0, 1] (by decide) (fun _ _ => rfl) (by decide +kernel)
  have htold : ((Invocations.new (.new (.new 0 .default true))).run xs).told = [⟨1⟩] := by
    decide +kernel
  have hopened : ((Invocations.new (.new (.new 0 .default true))).run xs).opened = [⟨1⟩, ⟨1⟩] := by
    decide +kernel
  obtain ⟨-, hon, -⟩ := first_invocations_are_told_once 0 .default true xs hidle
  obtain ⟨-, hmem, hsize⟩ := hon ⟨rfl, rfl⟩
  generalize (Invocations.new (.new (.new 0 .default true))).run xs = n at *
  generalize (Machine.new (.new 0 .default true)).run xs = m at *
  rw [htold] at hmem hsize
  intro _ _
  exact ⟨hidle, hactive, htold, hopened, hsize, fun k => (hmem k).trans List.mem_singleton⟩

end MethodTrace
