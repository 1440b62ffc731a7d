import MethodTrace.Proofs.Chronicle
import MethodTrace.Proofs.Outcome
import MethodTrace.Proofs.Sight

/-!
# How a registration is announced

The call that registers a thread is to announce it, before anything else is written for the thread. If
that call is refused at the guard, nobody announces the thread any more (`View.Heralded`). Both
hold whatever else becomes of the records, also when some are dropped.
-/

namespace MethodTrace

/-- Whether a call has registered its thread and has yet to announce it. -/
def Stage.fresh : Stage → Bool
  | .enrolled _ _ fresh | .cleared _ _ fresh | .guarding _ _ fresh => fresh
  | _ => false

def Footing.fresh : Footing → Bool
  | pending _ fresh _ => fresh
  | idle | telling .. => false

@[simp] theorem Stage.fresh_footing (stage : Stage) (c : Call) :
    (stage.footing c).fresh = stage.fresh := by
  cases stage <;> rfl

theorem announced_map_timeless (rs : List Record) :
    announced (rs.map Record.timeless) = announced rs := by
  have hisOf : ((fun r => Record.isOf r .threadCreated) ∘ Record.timeless) =
      fun r => r.isOf .threadCreated := rfl
  simp only [announced, List.filter_map, List.map_map, hisOf]
  rfl

theorem announced_eq_nil_iff {rs : List Record} :
    announced rs = [] ↔ ∀ r ∈ rs, r.isOf .threadCreated = false := by
  simp [announced, List.filter_eq_nil_iff]

namespace View

/-- How far the registration of a thread has been announced, and whether the call that registered it
has been refused at the guard. -/
inductive Heralded : View → Bool → Prop where
  | stranger {f : Footing} {rs : List Record} {js : List (Bool × Call)} (hf : f.fresh = false) :
    Heralded ⟨none, f, rs, js⟩ false
  | owing {s : CallStack} {c : Call} {cleared : Bool} {js : List (Bool × Call)}
    (hc : c.hook.enrolls = true) : Heralded ⟨some s, .pending c true cleared, [], js⟩ false
  | announced {s : CallStack} {f : Footing} {r : Record} {rs : List Record}
    {js : List (Bool × Call)} (hf : f.fresh = false) (hr : r.isOf .threadCreated = true)
    (hrs : MethodTrace.announced rs = []) : Heralded ⟨some s, f, r :: rs, js⟩ false
  | silent {s : CallStack} {f : Footing} {rs : List Record} {js : List (Bool × Call)}
    (hf : f.fresh = false) (hrs : MethodTrace.announced rs = []) : Heralded ⟨some s, f, rs, js⟩ true

namespace Heralded
variable {s : CallStack} {s? s'? : Option CallStack} {f f' : Footing} {rs new : List Record}
  {js js' : List (Bool × Call)} {c : Call} {fresh cleared cleared' refused : Bool}

/-- Who owes no announcement writes none. -/
theorem go (h : Heralded ⟨s?, f, rs, js⟩ refused) (hf : f.fresh = false) (hf' : f'.fresh = false)
    (hs : s'?.isSome = s?.isSome) (hnew : MethodTrace.announced new = []) :
    Heralded ⟨s'?, f', rs ++ new, js'⟩ refused := by
  cases h with
  | stranger =>
    cases s'? with
    | none => exact .stranger hf'
    | some s' => cases hs
  | owing => cases hf
  | announced _ hr hrs =>
    obtain ⟨s', rfl⟩ := Option.isSome_iff_exists.mp hs
    exact .announced hf' hr ((announced_append ..).trans (by rw [hrs, hnew]; rfl))
  | silent _ hrs =>
    obtain ⟨s', rfl⟩ := Option.isSome_iff_exists.mp hs
    exact .silent hf' ((announced_append ..).trans (by rw [hrs, hnew]; rfl))

theorem leave (h : Heralded ⟨s?, f, rs, js⟩ refused) (hf : f.fresh = false) (hf' : f'.fresh = false)
    (hs : s'?.isSome = s?.isSome) : Heralded ⟨s'?, f', rs, js'⟩ refused := by
  rw [← List.append_nil rs]
  exact h.go hf hf' hs rfl

/-- An announcement that is owed is still owed. -/
theorem wait (h : Heralded ⟨s?, .pending c fresh cleared, rs, js⟩ refused)
    (hs : s'?.isSome = s?.isSome) :
    Heralded ⟨s'?, .pending c fresh cleared', rs, js'⟩ refused := by
  cases fresh with
  | false => exact h.leave rfl rfl hs
  | true =>
    cases h with
    | owing hc =>
      obtain ⟨s', rfl⟩ := Option.isSome_iff_exists.mp hs
      exact .owing hc
    | stranger hf | announced hf | silent hf => cases hf

theorem act (h : Heralded ⟨some s, .pending c fresh cleared, rs, js⟩ refused) {w : Scribe}
    {s' : CallStack} (hf' : f'.fresh = false) (hnew : MethodTrace.announced new = []) :
    Heralded ⟨some s', f', rs ++ (c.greeting w fresh ++ new), js'⟩ refused := by
  cases fresh with
  | false =>
    have hgreeting : c.greeting w false = [] := by rw [Call.greeting, Bool.and_false]; rfl
    rw [hgreeting]
    exact h.go rfl hf' rfl hnew
  | true =>
    cases h with
    | owing hc =>
      have hgreeting : c.greeting w true = [w.created] := by rw [Call.greeting, hc]; rfl
      rw [hgreeting]
      exact .announced hf' (Record.isOf_encode _ _) hnew
    | announced hf | silent hf => cases hf

/-- A call that registers no threads owes no announcement. -/
theorem skip (h : Heralded ⟨s?, .pending c fresh cleared, rs, js⟩ refused)
    (hc : c.hook.enrolls = false) : Heralded ⟨s?, .idle, rs, js'⟩ refused := by
  cases fresh with
  | false => exact h.leave rfl rfl rfl
  | true =>
    cases h with
    | owing hc' => rw [hc] at hc'; cases hc'
    | stranger hf | announced hf | silent hf => cases hf

/-- A call that is refused announces nothing. -/
theorem refuse (h : Heralded ⟨s?, .pending c fresh cleared, rs, js⟩ refused) :
    Heralded ⟨s?, .idle, rs, js'⟩ (refused || fresh) := by
  cases fresh with
  | false => rw [Bool.or_false]; exact h.leave rfl rfl rfl
  | true =>
    cases h with
    | owing => exact .silent rfl rfl
    | stranger hf | announced hf | silent hf => cases hf

/-- What has been announced of a thread whose registering call has no more to say. -/
theorem once {v : View} (h : v.Heralded refused) (hs : v.stack ≠ none) (hf : v.footing.fresh = false) :
    if refused then MethodTrace.announced v.records = []
    else ∃ r rs, v.records = r :: rs ∧ r.isOf .threadCreated = true ∧
      MethodTrace.announced rs = [] := by
  cases h with
  | stranger => exact absurd rfl hs
  | owing => cases hf
  | announced _ hr hrs => exact ⟨_, _, rfl, hr, hrs⟩
  | silent _ hrs => exact hrs

end Heralded

end View

/-! ### Where nobody is told -/

/-- If nobody is to hear of first invocations, no call pauses. -/
theorem Call.act_closes {c : Call} {t : Tracer} (h : t.hasHandler = false) (epoch : UInt64)
    (slot : Slot) (fresh : Bool) : (c.act t epoch slot fresh).2 = .closing slot := by
  rcases hs : t.roster.stack? slot with _ | s
  · simp only [act, hs]
  · have hgreet : (c.greet t epoch s fresh).hasHandler = false :=
      (greet_touches hs).hasHandler.trans h
    rw [act_eq hs]
    split
    · dsimp only
      split
      · simp [invoke, Tracer.expands, Tracer.modifyStack, hgreet]
      · rfl
    · rfl

theorem Call.Goes.tells {c : Call} {who : OsThread} {l l' : Local} {stage stage' : Stage}
    (h : c.Goes who l stage l' stage') (hhandler : l.tracer.hasHandler = false)
    (ht : stage.tells = false) : stage'.tells = false := by
  cases h with
  | act => rw [act_closes hhandler]; rfl
  | ended => exact ht
  | _ => rfl

namespace Machine

/-- Nobody is to hear of first invocations, and nobody is being told. -/
structure Untold (m : Machine) : Prop where
  hasHandler : m.tracer.hasHandler = false
  tells : ∀ i, ∀ a ∈ m.active i, a.stage.tells = false

namespace Untold
variable {m : Machine} {limit : UInt32} {i : Nat} {a : Activity} {rest : List Activity}

theorem new (id : Nat) (s : Settings) : (Machine.new (.new id s false)).Untold :=
  ⟨rfl, fun _ => List.forall_mem_nil _⟩

theorem step (h : m.Untold) (x : Move) : (m.step x).Untold where
  hasHandler := (m.flags_step x).2.2.trans h.hasHandler
  tells i := by
    have hnext : ∀ (a : Activity) (stage : Stage) (calls : List Activity),
        stage.tells = false → (∀ b ∈ calls, b.stage.tells = false) →
        ∀ b ∈ a.next stage ++ calls, b.stage.tells = false := by
      intro a stage calls hstage hcalls b hb
      rcases List.mem_append.mp hb with hb | hb
      · rw [(Activity.eq_of_mem_next hb).1]; exact hstage
      · exact hcalls b hb
    have hcalls := m.calls_step x
    generalize m.step x = m' at hcalls
    cases hcalls with
    | same heq => rw [heq]; exact h.tells i
    | @call who _ _ _ _ _ hgoes heq =>
      rw [heq, Function.update_apply]
      split
      · exact hnext _ _ _ (hgoes.tells h.hasHandler rfl) (h.tells who.id)
      · exact h.tells i
    | @advance who a rest _ _ _ hact hgoes heq =>
      have htells := h.tells who.id
      rw [hact] at htells
      rw [heq, Function.update_apply]
      split
      · exact hnext _ _ _ (hgoes.tells h.hasHandler (htells a List.mem_cons_self))
          fun b hb => htells b (List.mem_cons_of_mem _ hb)
      · exact h.tells i

theorem suspendSlots (h : m.Untold) (slots : List Slot) : (m.suspendSlots slots).Untold := by
  rcases m.suspendSlots_cases slots with heq | ⟨-, heq⟩ <;> rw [heq]
  · exact h
  · exact ⟨h.hasHandler, h.tells⟩

theorem rest_eq_nil (hu : m.Untold) (h : m.Orderly limit) (hact : m.active i = a :: rest) :
    rest = [] := by
  have hstacked := h.stacked i
  have htells := hu.tells i
  rw [hact] at hstacked htells
  cases hstacked with
  | one => rfl
  | two _ hb => rw [htells _ (by simp)] at hb; cases hb

/-- A thread whose call is in progress calls no hook. -/
theorem active_of_ready (hu : m.Untold) (h : m.Orderly limit) (hr : m.ready i = true) :
    m.active i = [] := by
  rcases hact : m.active i with _ | ⟨a, rest⟩
  · rfl
  have ha : a ∈ m.active i := by rw [hact]; exact List.mem_cons_self
  have hpaused : a.stage.paused = true := by simpa [ready, hact] using hr
  have htells := Stage.tells_of_paused hpaused ((h.stacked i).isOver_eq_false ha)
  rw [hu.tells i a ha] at htells
  cases htells

end Untold

variable {m : Machine} {limit : UInt32} {i : Nat} {refused : Bool}

/-- Whether after a move nobody announces the registration of a thread any more: the call that
registered it has just been refused at the guard. -/
def silences (m : Machine) (x : Move) (i : Nat) : Bool :=
  match x with
  | .advance who =>
    who.id = i && (m.active i).head?.any (·.stage.fresh) &&
      m.outcome x = .returned (.error .guarded)
  | _ => false

section own
variable {who : OsThread} {a : Activity}

/-- The records that a call writes with its deed. -/
theorem heralded_act {c : Call} {counted : Bool} {epoch : UInt64} {slot : Slot} {fresh : Bool}
    (h : m.Orderly limit) (hact : m.active who.id = [⟨c, counted, .guarding epoch slot fresh⟩])
    (hkeeps : m.tracer.queue.keepsOut epoch = false) (hh : (m.view who.id).Heralded refused) :
    let a : Activity := ⟨c, counted, .guarding epoch slot fresh⟩
    ((m.put who.id ⟨a.settle (c.act m.tracer epoch slot fresh).1
      (c.act m.tracer epoch slot fresh).2, m.memory who.id⟩
      (a.next (c.act m.tracer epoch slot fresh).2)).view who.id).Heralded refused := by
  intro a
  have hslot := slot?_of_active h hact rfl
  obtain ⟨s, hs⟩ := h.sound.stack?_of_slot? hslot
  have hr : m.tracer.Reworks slot 0 (c.act m.tracer epoch slot fresh).1 := Call.act_touches.reworks
  obtain ⟨s', hs', -⟩ := hr.own s hs
  obtain ⟨new, hnew, hview⟩ := view_touched a (m.memory who.id)
    (c.act m.tracer epoch slot fresh).2 hslot hr hs hs'
  obtain ⟨post, drops, hposts⟩ := c.act_posts_greet epoch fresh hs
  have hwritten : (c.act m.tracer epoch slot fresh).1.written =
      m.tracer.written ++ (c.greeting (m.tracer.scribe s.no) fresh ++ post.map .timeless) := by
    rw [Tracer.written, hposts.records, List.map_append, ← List.append_assoc]
    congr 1
    exact Call.greet_written hkeeps
  have hpost : announced (post.map Record.timeless) = [] := by
    rw [announced_map_timeless, hposts.announced, ite_self]
  have hstage : (((c.act m.tracer epoch slot fresh).2).footing c).fresh = false := by
    rcases Call.act_stage (c := c) m.tracer epoch slot fresh with h | ⟨o, h⟩ <;> rw [h] <;> rfl
  rw [hnew] at hwritten
  rw [view_of_active hact, Roster.stackOf_of_slot? hslot, hs] at hh
  rw [hview, List.append_cancel_left hwritten, Roster.stackOf_of_slot? hslot, hs]
  exact hh.act hstage hpost

theorem heralded_advance (h : m.Orderly limit) (hact : m.active who.id = [a])
    (hh : (m.view who.id).Heralded refused) (hhandler : a.stage.tells = false)
    (hkeeps : ∀ e, a.stage.epoch? = some e → m.tracer.queue.keepsOut e = false) :
    ((m.step (.advance who)).view who.id).Heralded
      (refused || m.silences (.advance who) who.id) := by
  obtain ⟨c, counted, st⟩ := a
  obtain ⟨l, stage, hgoes, hm, houtcome⟩ := advance_outcome hact
  have hsilences : m.silences (.advance who) who.id =
      (st.fresh && decide (stage.outcome c = .returned (.error .guarded))) := by
    simp [silences, houtcome, hact]
  rw [hm, hsilences, List.append_nil]
  have hslot : ∀ s, st.slot? = some s → m.tracer.roster.slot? who.id = some s :=
    h.slot who.id ⟨c, counted, st⟩ (by rw [hact]; exact List.mem_cons_self)
  have keep : ∀ {v : View}, stage.outcome c ≠ .returned (.error .guarded) → v.Heralded refused →
      v.Heralded (refused || (st.fresh &&
        decide (stage.outcome c = .returned (.error .guarded)))) := by
    intro v hne hv
    rwa [decide_eq_false hne, Bool.and_false, Bool.or_false]
  have hv := hh
  rw [view_of_active hact] at hv
  cases hgoes with
  | suspended =>
    rw [view_found]
    exact keep (by simp [Stage.outcome]) (hv.leave rfl rfl rfl)
  | start =>
    rw [view_found]
    exact keep (by simp [Stage.outcome]) (hv.wait rfl)
  | find =>
    rw [view_found]
    exact keep (by simp [Stage.outcome]) (hv.wait rfl)
  | denied =>
    rw [view_found]
    exact keep (by simp only [Stage.outcome]; split <;> simp) (hv.leave rfl rfl rfl)
  | stranger =>
    rw [view_found]
    exact keep (by simp [Stage.outcome]) (hv.leave rfl rfl rfl)
  | register hcons henrolls hr =>
    obtain ⟨hnone, hview⟩ := view_enlist h hact hcons hr
    rw [hnone] at hh
    rw [hview]
    cases hh
    exact keep (by simp [Stage.outcome]) (.owing henrolls)
  | refuse hcons henrolls hr =>
    have hnone := (h.recalls who.id).slot?_of_unregistered hcons
    rw [(Roster.register_of_slot_eq_none hnone hr).2, view_found]
    exact keep (by simp [Stage.outcome]) (hv.leave rfl rfl rfl)
  | lost hnone =>
    obtain ⟨s, hs⟩ := h.sound.stack?_of_slot? (hslot _ rfl)
    rw [hnone] at hs
    cases hs
  | skip _ hnot =>
    have hnot : c.hook.enrolls = false := by
      cases he : c.hook.enrolls with
      | false => rfl
      | true => rw [Hook.concerns_of_enrolls he] at hnot; cases hnot
    rw [view_found]
    exact keep (by simp [Stage.outcome]) (hv.skip hnot)
  | clear =>
    rw [view_found]
    exact keep (by simp [Stage.outcome]) (hv.wait rfl)
  | @guarded _ _ _ fresh =>
    have houtcome : (Stage.returned (.error .guarded)).outcome c = .returned (.error .guarded) := rfl
    rw [view_found, decide_eq_true houtcome, Bool.and_true]
    exact hv.refuse
  | guard hs hg =>
    rw [view_guarded _ _ _ (hslot _ rfl) hs rfl]
    exact keep (by simp [Stage.outcome]) (hv.wait rfl)
  | @act t memory epoch slot fresh =>
    refine keep ?_ (heralded_act h hact (hkeeps epoch rfl) hh)
    rcases Call.act_stage (c := c) m.tracer epoch slot fresh with h | ⟨o, h⟩ <;> rw [h] <;>
      simp [Stage.outcome]
  | tell => cases hhandler
  | close =>
    obtain ⟨s, hs⟩ := h.sound.stack?_of_slot? (hslot _ rfl)
    rw [view_guarded _ _ _ (hslot _ rfl) hs rfl]
    exact keep (by simp [Stage.outcome]) (hv.leave rfl rfl rfl)
  | ended =>
    have := (h.stacked who.id).isOver_eq_false (a := ⟨c, counted, .returned _⟩)
      (by rw [hact]; exact List.mem_cons_self)
    cases this

theorem heralded_call (h : m.Orderly limit) (hu : m.Untold) (who : OsThread) (c : Call)
    (counted : Bool) (hh : (m.view who.id).Heralded refused) :
    ((m.call who c counted).view who.id).Heralded refused := by
  by_cases hr : m.ready who.id = true
  swap
  · rw [Machine.call, if_neg hr]
    exact hh
  obtain ⟨stage, hcall, hstage⟩ := call_eq_put hr c counted
  have hidle := hu.active_of_ready h hr
  have hfresh : (stage.footing c).fresh = false := by
    rcases hstage with ⟨-, rfl⟩ | ⟨-, epoch, rfl⟩ <;> rfl
  rw [view, View.of, hidle] at hh
  rw [hcall, hidle, List.append_nil, view_put, View.of, footing_next, note_past]
  exact hh.leave rfl hfresh rfl

end own

/-- A move either leaves it at that what has been announced of a thread, or announces it, or refuses
the call that was to do so. -/
theorem heralded_step (h : m.Orderly limit) (hu : m.Untold) (ht : m.InTime) {x : Move}
    (hx : x.isReset = false) (hh : (m.view i).Heralded refused) :
    ((m.step x).view i).Heralded (refused || m.silences x i) := by
  by_cases hi : x.mover? = some i
  swap
  · have hsilences : m.silences x i = false := by
      cases x with
      | advance who =>
        have hne : who.id ≠ i := fun heq => hi (congrArg some heq)
        simp [silences, hne]
      | _ => rfl
    rw [hsilences, Bool.or_false, view_step_of_ne h x hx hi]
    exact hh
  cases x with
  | call who c counted =>
    cases hi
    have hsilences : m.silences (.call who c counted) who.id = false := rfl
    rw [hsilences, Bool.or_false]
    exact heralded_call h hu who c counted hh
  | advance who =>
    cases hi
    rcases hact : m.active who.id with _ | ⟨a, rest⟩
    · have hsilences : m.silences (.advance who) who.id = false := by simp [silences, hact]
      rw [hsilences, Bool.or_false, step, advance_of_idle hact]
      exact hh
    · obtain rfl := hu.rest_eq_nil h hact
      have ha : a ∈ m.active who.id := by rw [hact]; exact List.mem_cons_self
      exact heralded_advance h hact hh (hu.tells _ a ha) fun e he =>
        ht.coupled.keepsOut (ht.precedes _ a ha e he)
  | _ => cases hi

theorem fresh_footing_active (h : ∀ a ∈ m.active i, a.stage.fresh = false) :
    (footing (m.active i)).fresh = false := by
  unfold footing
  split
  · rfl
  · rename_i a ha
    rw [Stage.fresh_footing]
    exact h a (List.mem_of_getLast? ha)

/-- A registered thread is announced once, before its other records, or never. -/
theorem announced_once (hh : (m.view i).Heralded refused) {c : CallStack}
    (hc : m.stackOf i = some c) (hfresh : ∀ a ∈ m.active i, a.stage.fresh = false) :
    if refused then ∀ r ∈ m.recordsOf i, r.isOf .threadCreated = false
    else ∃ r rs, m.recordsOf i = r :: rs ∧ r.isOf .threadCreated = true ∧
      ∀ r' ∈ rs, r'.isOf .threadCreated = false := by
  have hstack : (m.view i).stack = some (c.withGuard 0) := congrArg (Option.map _) hc
  have honce := hh.once (by rw [hstack]; simp) (fresh_footing_active hfresh)
  have hrecords : (m.view i).records = (m.recordsOf i).map Record.timeless := rfl
  rw [hrecords] at honce
  cases refused with
  | true =>
    rw [if_pos rfl, announced_map_timeless] at honce
    exact announced_eq_nil_iff.mp honce
  | false =>
    obtain ⟨r', rs', heq, hr, hrs⟩ := honce
    obtain ⟨r, rs, hrs', rfl, rfl⟩ := List.map_eq_cons_iff.mp heq
    rw [announced_map_timeless] at hrs
    exact ⟨r, rs, hrs', hr, announced_eq_nil_iff.mp hrs⟩

end Machine

end MethodTrace
