import MethodTrace.Proofs.Membership
import MethodTrace.Proofs.Progress

/-!
# A step of a call and the other threads

A step of a call finds out something, registers its thread, or reworks the stack of its own thread
(`Turn`). The guard is one more afterwards if the call has taken it, one less if it has dropped it.
-/

namespace MethodTrace

namespace Stage

/-- A call that has not got as far as the guard. -/
def isEarly : Stage → Bool
  | called | running _ | enrolled .. | cleared .. => true
  | _ => false

/-- A call that holds the guard. -/
def guards : Stage → Bool
  | guarding .. | expanding .. | closing _ => true
  | _ => false

def slot? : Stage → Option Slot
  | enrolled _ s _ | cleared _ s _ | guarding _ s _ | expanding _ s _ | closing s => some s
  | called | running _ | returned _ => none

theorem isOver_of_slot? {stage : Stage} {s : Slot} (h : stage.slot? = some s) :
    stage.isOver = false := by
  cases stage <;> first | rfl | cases h

/-- How often a call holds the guard. -/
def weight (stage : Stage) : Int := if stage.guards then 1 else 0

end Stage

namespace Tracer

/-- The stack in `slot` has changed, its guard by `d`, and nothing else but what has been written
for its thread. -/
structure Reworks (slot : Slot) (d : Int) (t t' : Tracer) : Prop where
  quota : t'.quota = t.quota
  roster : t'.roster = { t.roster with callStacks := t'.roster.callStacks }
  size : t'.roster.callStacks.size = t.roster.callStacks.size
  others : ∀ s, s ≠ slot → t'.roster.stack? s = t.roster.stack? s
  own : ∀ c, t.roster.stack? slot = some c →
    ∃ c', t'.roster.stack? slot = some c' ∧ c'.no = c.no ∧ c'.guard = c.guard + Int32.ofInt d
  records : ∃ rs, t'.queue.records.toList = t.queue.records.toList ++ rs ∧
    ∀ r ∈ rs, ∀ c, t.roster.stack? slot = some c → r.thread = c.no.val

variable {slot : Slot} {epoch : UInt64} {t t' : Tracer} {d : Int} {limit : UInt32}

theorem Touches.reworks (h : Touches slot epoch t t') : Reworks slot 0 t t' where
  quota := h.quota
  roster := h.roster
  size := h.size
  others := h.others
  own c hc := by
    obtain ⟨c', hc', hno, hg⟩ := h.own c hc
    exact ⟨c', hc', hno, by rw [hg]; exact (Int32.add_zero _).symm⟩
  records := h.records

theorem modifyStack_reworks {f : CallStack → CallStack}
    (hf : ∀ c, t.roster.stack? slot = some c →
      (f c).no = c.no ∧ (f c).guard = c.guard + Int32.ofInt d) :
    Reworks slot d t (t.modifyStack slot f) where
  quota := rfl
  roster := rfl
  size := by simp [modifyStack, Roster.modify]
  others _ hs := Roster.stack?_modify_of_ne hs
  own c hc := ⟨f c, by simp [modifyStack, Roster.stack?_modify_self, hc], hf c hc⟩
  records := ⟨[], by simp [modifyStack], by simp⟩

namespace Reworks

theorem slot? (h : Reworks slot d t t') (i : Nat) : t'.roster.slot? i = t.roster.slot? i := by
  rw [h.roster]
  rfl

theorem lookup (h : Reworks slot d t t') (i : Nat) : t'.roster.lookup i = t.roster.lookup i := by
  rw [h.roster]
  rfl

theorem stack_lt (h : Reworks slot d t t') {s : Slot} {c' : CallStack}
    (hc' : t'.roster.stack? s = some c') : ∃ c, t.roster.stack? s = some c ∧ c'.no = c.no := by
  by_cases hs : s = slot
  · subst hs
    rcases hc : t.roster.stack? s with _ | c
    · have := Roster.lt_size_of_stack? hc'
      rw [h.size] at this
      exact absurd (Roster.stack?_eq_none_iff.mp hc) (Nat.not_le_of_lt this)
    · obtain ⟨c'', hc'', hno, -⟩ := h.own c hc
      rw [hc'] at hc''
      cases hc''
      exact ⟨c, rfl, hno⟩
  · exact ⟨c', (h.others s hs).symm.trans hc', rfl⟩

theorem sound (h : Reworks slot d t t') (hs : t.roster.Sound t.quota limit) :
    t'.roster.Sound t'.quota limit := by
  rw [h.quota]
  exact hs.congr h.roster h.size fun _ _ hc' => h.stack_lt hc'

end Reworks

end Tracer

namespace Call

inductive Turn (who : OsThread) : Local → Stage → Local → Stage → Prop where
  | find {t : Tracer} {memory memory' : Memory} {stage stage' : Stage}
    (hs : stage.isEarly = true) (hs' : stage'.isEarly = true ∨ stage'.isOver = true)
    (hslot : ∀ s, stage'.slot? = some s → stage.slot? = some s ∨ t.roster.slot? who.id = some s)
    (hm : t.roster.Recalls who.id memory') : Turn who ⟨t, memory⟩ stage ⟨t, memory'⟩ stage'
  | enlist {t : Tracer} {q : Quota} {memory : Memory} {epoch : UInt64}
    (hslot : t.roster.slot? who.id = none) (hq : t.quota.take = some q) :
    Turn who ⟨t, memory⟩ (.running epoch)
      ⟨{ t with roster := t.roster.enlist who, quota := q },
        t.roster.memoryOf (.registered t.roster.callStacks.size)⟩
      (.enrolled epoch t.roster.callStacks.size true)
  | rework {t t' : Tracer} {memory : Memory} {stage stage' : Stage} {slot : Slot}
    (hslot : stage.slot? = some slot) (hslot' : ∀ s, stage'.slot? = some s → s = slot)
    (h : t.Reworks slot (stage'.weight - stage.weight) t')
    (hs : stage.guards = true ∨ stage.isEarly = true ∧
      ∀ c, t.roster.stack? slot = some c → c.guarded = false)
    (hs' : stage'.guards = true ∨ stage'.isOver = true) :
    Turn who ⟨t, memory⟩ stage ⟨t', memory⟩ stage'

variable {c : Call} {who : OsThread} {l l' : Local} {stage stage' : Stage}

/-- A call that holds the guard or takes it reworks the stack in its slot. -/
theorem Goes.reworks (h : c.Goes who l stage l' stage')
    (hg : stage.guards = true ∨ stage'.guards = true) : ∃ slot, stage.slot? = some slot ∧
      (∀ s, stage'.slot? = some s → s = slot) ∧ l'.memory = l.memory ∧
      l.tracer.Reworks slot (stage'.weight - stage.weight) l'.tracer ∧
      (stage.guards = true ∨ stage.isEarly = true ∧
        ∀ c, l.tracer.roster.stack? slot = some c → c.guarded = false) ∧
      (stage'.guards = true ∨ stage'.isOver = true) := by
  cases h with
  | @guard t memory epoch slot fresh s h hfree =>
    refine ⟨slot, rfl, fun s hs => by cases hs; rfl, rfl,
      Tracer.modifyStack_reworks fun c hc => ?_, .inr ⟨rfl, fun c hc => ?_⟩, .inl rfl⟩
    · rw [h] at hc; cases hc; exact ⟨rfl, rfl⟩
    · rw [h] at hc; cases hc; exact hfree
  | @act t memory epoch slot fresh =>
    have hr : Tracer.Reworks slot 0 t (c.act t epoch slot fresh).1 := act_touches.reworks
    rcases act_stage (c := c) t epoch slot fresh with hs | ⟨o, hs⟩ <;> rw [hs] <;>
      exact ⟨slot, rfl, fun s hs => by cases hs; rfl, rfl, hr, .inl rfl, .inl rfl⟩
  | @tell t memory epoch slot o =>
    exact ⟨slot, rfl, fun s hs => by cases hs; rfl, rfl, (enter_touches epoch o).reworks, .inl rfl,
      .inl rfl⟩
  | @close t memory slot =>
    exact ⟨slot, rfl, nofun, rfl,
      Tracer.modifyStack_reworks fun c hc => ⟨rfl, Int32.sub_eq_add_neg _ _⟩, .inl rfl, .inr rfl⟩
  | _ => rcases hg with hg | hg <;> cases hg

theorem Goes.turn (h : c.Goes who l stage l' stage') (hover : stage.isOver = false)
    (hm : l.tracer.roster.Recalls who.id l.memory) : Turn who l stage l' stage' := by
  by_cases hg : stage.guards = true ∨ stage'.guards = true
  · obtain ⟨slot, hslot, hslot', hmemory, hr, hs, hs'⟩ := h.reworks hg
    obtain ⟨t, memory⟩ := l
    obtain ⟨t', memory'⟩ := l'
    cases hmemory
    exact .rework hslot hslot' hr hs hs'
  cases h with
  | suspended | start => exact .find rfl (by simp [Stage.isEarly, Stage.isOver]) (by simp [Stage.slot?]) hm
  | @find t memory memory' epoch slot h =>
    refine .find rfl (.inl rfl) (fun s hs => ?_) (hm.consult h).2
    cases hs
    exact .inr (hm.slot?_of_registered h)
  | denied h | stranger h => exact .find rfl (.inr rfl) (by simp [Stage.slot?]) (hm.consult h).2
  | @register t memory memory' epoch slot h hc hr =>
    have hnone := hm.slot?_of_unregistered h
    obtain ⟨rfl, -, q, hq, heq⟩ := Roster.register_of_slot_eq_some hnone hr
    rw [heq]
    exact .enlist hnone hq
  | @refuse t memory memory' epoch h hc hr =>
    have hnone := hm.slot?_of_unregistered h
    rw [(Roster.register_of_slot_eq_none hnone hr).2]
    exact .find rfl (.inr rfl) (by simp [Stage.slot?]) (Roster.recalls_memoryOf (.inr rfl))
  | lost | skip | guarded => exact .find rfl (.inr rfl) (by simp [Stage.slot?]) hm
  | clear => exact .find rfl (.inl rfl) (fun _ => .inl) hm
  | guard => exact absurd (.inr rfl) hg
  | act | tell | close => exact absurd (.inl rfl) hg
  | ended => cases hover

end Call

end MethodTrace
