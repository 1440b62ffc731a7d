import MethodTrace.Proofs.Gate
import MethodTrace.Proofs.Turn

/-!
# Runs in which nothing is forgotten

`Machine.Orderly` holds along every run without a reset. A thread has at most two calls in progress:
one that may hold the guard and, while that one tells a first invocation, one that does not get as
far (`Stacked`). So the guard of a stack is the suspension in force and the call that holds it.
-/

namespace MethodTrace

def Stage.tells : Stage → Bool
  | .expanding .. => true
  | _ => false

/-- The calls of one thread that are in progress. -/
inductive Stacked : List Activity → Prop
  | none : Stacked []
  | one {a : Activity} (h : a.stage.isEarly = true ∨ a.stage.guards = true) : Stacked [a]
  | two {a b : Activity} (ha : a.stage.isEarly = true) (hb : b.stage.tells = true) : Stacked [a, b]

/-- How often a suspension holds the guard of the stack in a slot. -/
def Suspension.weight (b : Suspension) (s : Slot) : Int := if s ∈ b.held then 1 else 0

namespace Suspension
variable {b : Suspension} {s : Slot} {c : CallStack} {w : Int}

theorem weight_nonneg (b : Suspension) (s : Slot) : 0 ≤ b.weight s := by
  unfold weight; split <;> decide

theorem weight_le_one (b : Suspension) (s : Slot) : b.weight s ≤ 1 := by
  unfold weight; split <;> decide

/-- Who suspends takes the guards in the slots, beside the calls that hold them. -/
theorem guard_bump (hfree : b.held = []) (hw : w ≤ 1) (hg : c.guard.toInt = b.weight s + w)
    (e : UInt64) (slots : List Slot) :
    (if s ∈ slots then c.bump else c).guard.toInt =
      (Suspension.mk true e slots).weight s + w := by
  rw [weight, hfree, if_neg List.not_mem_nil] at hg
  rw [weight]
  split
  · rw [CallStack.toInt_guard_bump (by omega)]
    omega
  · exact hg

/-- Who resumes drops the guards that the suspension has taken, and no others. -/
theorem guard_release (hw : 0 ≤ w) (hg : c.guard.toInt = b.weight s + w) (e : UInt64) :
    (if s ∈ b.held then c.release else c).guard.toInt =
      (Suspension.mk false e []).weight s + w := by
  rw [weight] at hg ⊢
  rw [if_neg List.not_mem_nil]
  split
  · rename_i hs
    rw [if_pos hs] at hg
    have hpos : 0 < c.guard.toInt := by omega
    rw [CallStack.release_of_pos hpos, CallStack.toInt_guard_dropGuard hpos]
    omega
  · rename_i hs
    rwa [if_neg hs] at hg

end Suspension

/-- How often the calls of a thread hold its guard. -/
def weight : List Activity → Int
  | [] => 0
  | a :: calls => a.stage.weight + weight calls

namespace Move

def isReset : Move → Bool
  | reset _ => true
  | _ => false

def isSuspend : Move → Bool
  | suspend => true
  | _ => false

/-- The thread that a move keeps out of tracing. -/
def excluded? : Move → Option Nat
  | exclude i => some i
  | _ => none

/-- The thread that calls a hook. -/
def caller? : Move → Option Nat
  | call who .. => some who.id
  | _ => none

/-- The thread whose call begins or goes on. -/
def mover? : Move → Option Nat
  | call who .. | advance who => some who.id
  | _ => none

end Move

namespace Stage
variable {stage : Stage}

theorem guards_of_tells (h : stage.tells = true) : stage.guards = true := by
  cases stage <;> first | rfl | cases h

theorem weight_nonneg (stage : Stage) : 0 ≤ stage.weight := by unfold weight; split <;> decide

theorem weight_le_one (stage : Stage) : stage.weight ≤ 1 := by unfold weight; split <;> decide

theorem weight_of_guards (h : stage.guards = true) : stage.weight = 1 := by simp [weight, h]

theorem guards_of_isEarly (h : stage.isEarly = true) : stage.guards = false := by
  cases stage <;> first | rfl | cases h

theorem isOver_of_guards (h : stage.guards = true) : stage.isOver = false := by
  cases stage <;> first | rfl | cases h

theorem guards_of_isOver (h : stage.isOver = true) : stage.guards = false := by
  cases stage <;> first | rfl | cases h

theorem tells_of_paused (h : stage.paused = true) (hover : stage.isOver = false) :
    stage.tells = true := by
  cases stage with
  | expanding => rfl
  | returned => cases hover
  | _ => cases h

theorem paused_of_isEarly (h : stage.isEarly = true) : stage.paused = false := by
  cases stage <;> first | rfl | cases h

theorem weight_of_not_guards (h : stage.guards = false) : stage.weight = 0 := by simp [weight, h]

end Stage

@[simp] theorem weight_nil : weight [] = 0 := rfl

@[simp] theorem weight_cons (a : Activity) (calls : List Activity) :
    weight (a :: calls) = a.stage.weight + weight calls := rfl

theorem weight_next (a : Activity) (stage : Stage) (rest : List Activity) :
    weight (a.next stage ++ rest) = stage.weight + weight rest := by
  cases stage <;> simp [Activity.next, Stage.weight, Stage.guards]

theorem Stacked.weight_nonneg {calls : List Activity} (h : Stacked calls) : 0 ≤ weight calls := by
  cases h with
  | none => exact Int.le_refl 0
  | @one a => simpa using a.stage.weight_nonneg
  | @two a b => simpa using Int.add_nonneg a.stage.weight_nonneg b.stage.weight_nonneg

theorem Stacked.weight_le_one {calls : List Activity} (h : Stacked calls) : weight calls ≤ 1 := by
  cases h with
  | none => decide
  | @one a => simpa using a.stage.weight_le_one
  | @two a b ha =>
    simpa [Stage.weight_of_not_guards (Stage.guards_of_isEarly ha)] using b.stage.weight_le_one

theorem Stacked.isOver_eq_false {calls : List Activity} (h : Stacked calls) {a : Activity}
    (ha : a ∈ calls) : a.stage.isOver = false := by
  have : a.stage.isEarly = true ∨ a.stage.guards = true := by
    cases h with
    | none => cases ha
    | one h => rw [List.mem_singleton.mp ha]; exact h
    | two h h' =>
      rcases List.mem_cons.mp ha with rfl | ha
      · exact .inl h
      · rw [List.mem_singleton.mp ha]; exact .inr (Stage.guards_of_tells h')
  rcases a with ⟨c, counted, stage⟩
  cases stage <;> first | rfl | simp [Stage.isEarly, Stage.guards] at this

theorem Stacked.eq_singleton {calls : List Activity} (h : Stacked calls) {a : Activity}
    (ha : a ∈ calls) (hg : a.stage.guards = true) (ht : a.stage.tells = false) : calls = [a] := by
  cases h with
  | none => cases ha
  | one h => rw [List.mem_singleton.mp ha]
  | two ha' hb =>
    rcases List.mem_cons.mp ha with rfl | ha
    · rw [Stage.guards_of_isEarly ha'] at hg; cases hg
    · rw [List.mem_singleton.mp ha, hb] at ht; cases ht

theorem Stacked.next {a : Activity} {rest : List Activity} {stage : Stage}
    (h : Stacked (a :: rest))
    (hs : stage.isEarly = true ∨ stage.isOver = true ∨ stage.guards = true ∧ rest = []) :
    Stacked (a.next stage ++ rest) := by
  have hrest : Stacked rest := by
    cases h with
    | one h => exact .none
    | two ha hb => exact .one (.inr (Stage.guards_of_tells hb))
  cases hover : stage.isOver with
  | true =>
    rw [Activity.next_of_isOver hover]
    exact hrest
  | false =>
    rw [Activity.next_of_not_isOver hover]
    rcases hs with hs | hs | ⟨hs, rfl⟩
    · cases h with
      | one h => exact .one (.inl hs)
      | two ha hb => exact .two hs hb
    · rw [hover] at hs; cases hs
    · exact .one (.inr hs)

namespace Machine

/-- A call has begun. -/
def push (m : Machine) (i : Nat) (a : Activity) : Machine :=
  { m with active := Function.update m.active i (a :: m.active i) }

structure Orderly (limit : UInt32) (m : Machine) : Prop where
  sound : m.tracer.roster.Sound m.tracer.quota limit
  recalls : ∀ i, m.tracer.roster.Recalls i (m.memory i)
  stacked : ∀ i, Stacked (m.active i)
  slot : ∀ i, ∀ a ∈ m.active i, ∀ s, a.stage.slot? = some s → m.tracer.roster.slot? i = some s
  held : m.tracer.suspension.held.Nodup
  held_lt : ∀ s ∈ m.tracer.suspension.held, s < m.tracer.roster.callStacks.size
  free : m.tracer.suspension.suspended = false → m.tracer.suspension.held = []
  guard : ∀ i s c, m.tracer.roster.slot? i = some s → m.tracer.roster.stack? s = some c →
    c.guard.toInt = m.tracer.suspension.weight s + weight (m.active i)
  known : ∀ r ∈ m.history, r.thread.toNat ≤ m.tracer.roster.callStacks.size

variable {m : Machine} {limit : UInt32}

theorem advance_of_idle {who : OsThread} (hact : m.active who.id = []) : m.advance who = m := by
  rw [advance, hact]

theorem advance_push (m : Machine) (who : OsThread) (a : Activity) :
    (m.push who.id a).advance who = m.proceed who a (m.active who.id) := by
  simp [advance, push, proceed, put]

theorem call_eq (m : Machine) (who : OsThread) (c : Call) (counted : Bool)
    (h : m.ready who.id = true) :
    m.call who c counted =
      ((m.note who.id c).push who.id ⟨c, counted, .called⟩).advance who := by
  rw [call, if_pos h, advance_push, note_active]

namespace Orderly

theorem new (id : Nat) (s : Settings) (hasHandler : Bool) :
    (Machine.new (.new id s hasHandler)).Orderly s.threadSlots where
  sound := .new id s.threadSlots
  recalls i st h := by simp [Machine.new, Roster.recollect] at h
  stacked _ := .none
  slot i a ha := by simp [Machine.new] at ha
  held := List.nodup_nil
  held_lt s hs := by simp [Machine.new, Tracer.new, Suspension.new] at hs
  free _ := rfl
  guard i s c h := by simp [Machine.new, Tracer.new, Roster.new, Roster.slot?] at h
  known r hr := by simp [Machine.new, Tracer.new, history, Queue.new] at hr

/-- Moves that concern neither the threads nor the records. -/
theorem congr (h : m.Orderly limit) {m' : Machine} (hr : m'.tracer.roster = m.tracer.roster)
    (hq : m'.tracer.quota = m.tracer.quota) (hs : m'.tracer.suspension = m.tracer.suspension)
    (hm : m'.memory = m.memory) (ha : m'.active = m.active) (hh : m'.history = m.history) :
    m'.Orderly limit where
  sound := by rw [hr, hq]; exact h.sound
  recalls := by rw [hr, hm]; exact h.recalls
  stacked := by rw [ha]; exact h.stacked
  slot := by rw [ha, hr]; exact h.slot
  held := by rw [hs]; exact h.held
  held_lt := by rw [hs, hr]; exact h.held_lt
  free := by rw [hs]; exact h.free
  guard := by rw [hr, hs, ha]; exact h.guard
  known := by rw [hh, hr]; exact h.known

theorem remember (h : m.Orderly limit) {i : Nat} {memory : Memory}
    (hm : m.tracer.roster.Recalls i memory) : (m.remember i memory).Orderly limit where
  sound := h.sound
  recalls j := by
    simp only [Machine.remember, Function.update_apply]
    split
    · rename_i hj; rw [hj]; exact hm
    · exact h.recalls j
  stacked := h.stacked
  slot := h.slot
  held := h.held
  held_lt := h.held_lt
  free := h.free
  guard := h.guard
  known := h.known

theorem push (h : m.Orderly limit) {who : OsThread} {c : Call} {counted : Bool}
    (hr : m.ready who.id = true) : (m.push who.id ⟨c, counted, .called⟩).Orderly limit where
  sound := h.sound
  recalls := h.recalls
  stacked i := by
    simp only [Machine.push, Function.update_apply]
    split
    · rename_i hi
      have hs := h.stacked who.id
      have hover := fun a => hs.isOver_eq_false (a := a)
      simp only [ready] at hr
      generalize m.active who.id = calls at hs hr hover ⊢
      cases hs with
      | none => exact .one (.inl rfl)
      | one => exact .two rfl (Stage.tells_of_paused (by simpa using hr) (hover _ (by simp)))
      | two ha =>
        have := Stage.paused_of_isEarly ha
        simp [this] at hr
    · exact h.stacked i
  slot i a ha s hs := by
    simp only [Machine.push, Function.update_apply] at ha
    split at ha
    · rename_i hi
      rcases List.mem_cons.mp ha with rfl | ha
      · cases hs
      · rw [hi]; exact h.slot who.id a ha s hs
    · exact h.slot i a ha s hs
  held := h.held
  held_lt := h.held_lt
  free := h.free
  guard i s c hi hc := by
    have := h.guard i s c hi hc
    by_cases hw : i = who.id
    · subst hw
      simpa [Machine.push, Stage.weight, Stage.guards] using this
    · simpa [Machine.push, hw] using this
  known := h.known

section put
variable {i : Nat} {a : Activity} {rest : List Activity} {stage : Stage}

theorem settle {l : Local} {calls : List Activity} (h : (m.put i l calls).Orderly limit)
    (a : Activity) (stage : Stage) :
    (m.put i ⟨a.settle l.tracer stage, l.memory⟩ calls).Orderly limit :=
  h.congr (by simp [put]) (by simp [put]) (by simp [put]) rfl rfl (by simp [put, history])

theorem recalls_put (h : m.Orderly limit) {t' : Tracer} {memory : Memory}
    (hid : t'.roster.id = m.tracer.roster.id)
    (hg : t'.roster.generation = m.tracer.roster.generation)
    (hl : ∀ j, j ≠ i → t'.roster.lookup j = m.tracer.roster.lookup j)
    (hm : t'.roster.Recalls i memory) (calls : List Activity) (j : Nat) :
    t'.roster.Recalls j ((m.put i ⟨t', memory⟩ calls).memory j) := by
  simp only [put, Function.update_apply]
  split
  · rename_i hj; rw [hj]; exact hm
  · rename_i hj; exact (h.recalls j).congr hid hg (hl j hj)

theorem stacked_put (h : m.Orderly limit) {l : Local} {calls : List Activity}
    (hc : Stacked calls) (j : Nat) : Stacked ((m.put i l calls).active j) := by
  simp only [put, Function.update_apply]
  split
  · exact hc
  · exact h.stacked j

/-- Only the outermost call of a thread can have to register it. -/
theorem rest_eq_nil_of_unregistered (h : m.Orderly limit) (hact : m.active i = a :: rest)
    (hslot : m.tracer.roster.slot? i = none) : rest = [] := by
  have hstacked := h.stacked i
  rw [hact] at hstacked
  cases hstacked with
  | one => rfl
  | @two a b ha hb =>
    obtain ⟨c, counted, st⟩ := b
    cases st with
    | expanding e s o =>
      have := h.slot i ⟨c, counted, .expanding e s o⟩ (by rw [hact]; simp) s rfl
      rw [hslot] at this
      cases this
    | _ => cases hb

/-- A call that holds or takes the guard is the outermost of its thread. -/
theorem rest_eq_nil_of_guards (h : m.Orderly limit) (hact : m.active i = a :: rest) {slot : Slot}
    (hslot : a.stage.slot? = some slot)
    (hs : a.stage.guards = true ∨ a.stage.isEarly = true ∧
      ∀ c, m.tracer.roster.stack? slot = some c → c.guarded = false) : rest = [] := by
  have hi : m.tracer.roster.slot? i = some slot :=
    h.slot i a (by rw [hact]; exact List.mem_cons_self) slot hslot
  obtain ⟨c₀, hc₀⟩ := h.sound.stack?_of_slot? hi
  have hg₀ := h.guard i slot c₀ hi hc₀
  have hstacked := h.stacked i
  rw [hact] at hg₀ hstacked
  cases hstacked with
  | one => rfl
  | @two a b ha hb =>
    rcases hs with hs | ⟨-, hs⟩
    · rw [Stage.guards_of_isEarly ha] at hs; cases hs
    · have hfree := hs c₀ hc₀
      have hw := m.tracer.suspension.weight_nonneg slot
      rw [weight_cons, weight_cons, Stage.weight_of_not_guards (Stage.guards_of_isEarly ha),
        Stage.weight_of_guards (Stage.guards_of_tells hb), weight_nil] at hg₀
      rw [CallStack.guarded_eq_false_iff] at hfree
      omega

theorem put_find (h : m.Orderly limit) (hact : m.active i = a :: rest) {memory : Memory}
    (hs : a.stage.isEarly = true) (hs' : stage.isEarly = true ∨ stage.isOver = true)
    (hslot : ∀ s, stage.slot? = some s → m.tracer.roster.slot? i = some s)
    (hm : m.tracer.roster.Recalls i memory) :
    (m.put i ⟨m.tracer, memory⟩ (a.next stage ++ rest)).Orderly limit where
  sound := h.sound
  recalls := h.recalls_put rfl rfl (fun _ _ => rfl) hm _
  stacked := h.stacked_put <| Stacked.next (hact ▸ h.stacked i) <| by
    rcases hs' with hs' | hs'
    · exact .inl hs'
    · exact .inr (.inl hs')
  slot j b hb s hbs := by
    simp only [put, Function.update_apply] at hb
    split at hb
    · rename_i hj
      rw [hj]
      rcases List.mem_append.mp hb with hb | hb
      · rw [(Activity.eq_of_mem_next hb).1] at hbs
        exact hslot s hbs
      · exact h.slot i b (by rw [hact]; exact List.mem_cons_of_mem _ hb) s hbs
    · exact h.slot j b hb s hbs
  held := h.held
  held_lt := h.held_lt
  free := h.free
  guard j s c hj hc := by
    have hg := h.guard j s c hj hc
    by_cases hji : j = i
    · subst hji
      have hstage : stage.weight = 0 := Stage.weight_of_not_guards <|
        hs'.elim Stage.guards_of_isEarly Stage.guards_of_isOver
      rw [hact, weight_cons, Stage.weight_of_not_guards (Stage.guards_of_isEarly hs)] at hg
      simpa [put, weight_next, hstage] using hg
    · simpa [put, hji] using hg
  known := h.known

theorem put_enlist (h : m.Orderly limit) {who : OsThread} {q : Quota}
    (hact : m.active who.id = a :: rest)
    (hslot : m.tracer.roster.slot? who.id = none) (hq : m.tracer.quota.take = some q)
    (hstage : stage.slot? = some m.tracer.roster.callStacks.size) (hs' : stage.isEarly = true) :
    (m.put who.id ⟨{ m.tracer with roster := m.tracer.roster.enlist who, quota := q },
      m.tracer.roster.memoryOf (.registered m.tracer.roster.callStacks.size)⟩
      (a.next stage ++ rest)).Orderly limit := by
  have hsize : (m.tracer.roster.enlist who).callStacks.size =
      m.tracer.roster.callStacks.size + 1 := by simp [Roster.enlist]
  obtain rfl := h.rest_eq_nil_of_unregistered hact hslot
  refine ⟨h.sound.enlist hslot hq, ?_, ?_, fun j b hb s hbs => ?_, h.held, fun s hsh => ?_, h.free,
    fun j s c hj hc => ?_, fun r hr => ?_⟩
  · refine h.recalls_put ?_ ?_ (fun j hj => ?_) ?_ _
    · rfl
    · rfl
    · exact Roster.lookup_enlist_of_ne hj
    · exact Roster.recalls_memoryOf (r := m.tracer.roster.enlist who) (.inl
        (Roster.lookup_eq_registered_iff.mpr (Roster.slot?_enlist_self who hslot)).symm)
  · exact h.stacked_put (Stacked.next (hact ▸ h.stacked who.id) (.inl hs'))
  · simp only [put, Function.update_apply] at hb
    split at hb
    · rename_i hj
      rw [List.append_nil] at hb
      rw [(Activity.eq_of_mem_next hb).1, hstage] at hbs
      cases hbs
      rw [hj]
      exact Roster.slot?_enlist_self who hslot
    · rename_i hj
      exact (Roster.slot?_enlist_of_ne hj).trans (h.slot j b hb s hbs)
  · exact Nat.lt_of_lt_of_le (h.held_lt s hsh) (by simp only [put, hsize]; exact Nat.le_succ _)
  · by_cases hji : j = who.id
    · subst hji
      obtain rfl : m.tracer.roster.callStacks.size = s := by
        have := (Roster.slot?_enlist_self who hslot).symm.trans hj
        exact Option.some.inj this
      obtain rfl : CallStack.new ⟨m.tracer.roster.nextNo⟩ who.name = c := by
        have := (m.tracer.roster.stack?_enlist_size who).symm.trans hc
        exact Option.some.inj this
      have hheld : m.tracer.roster.callStacks.size ∉ m.tracer.suspension.held :=
        fun hmem => Nat.lt_irrefl _ (h.held_lt _ hmem)
      have hw : weight (a.next stage ++ []) = 0 := by
        rw [weight_next, Stage.weight_of_not_guards (Stage.guards_of_isEarly hs'), weight_nil]
        rfl
      simp only [put, Function.update_self, hw, Suspension.weight, hheld, CallStack.new]
      rfl
    · have hj' : m.tracer.roster.slot? j = some s := (Roster.slot?_enlist_of_ne hji).symm.trans hj
      have hc' : m.tracer.roster.stack? s = some c :=
        (Roster.stack?_enlist_of_lt (h.sound.slot_lt hj')).symm.trans hc
      simpa [put, hji] using h.guard j s c hj' hc'
  · exact Nat.le_trans (h.known r hr) (by simp only [put, hsize]; exact Nat.le_succ _)

theorem put_rework (h : m.Orderly limit) (hact : m.active i = a :: rest) {t' : Tracer} {slot : Slot}
    (hslot : a.stage.slot? = some slot) (hslot' : ∀ s, stage.slot? = some s → s = slot)
    (hr : m.tracer.Reworks slot (stage.weight - a.stage.weight) t')
    (hs : a.stage.guards = true ∨ a.stage.isEarly = true ∧
      ∀ c, m.tracer.roster.stack? slot = some c → c.guarded = false)
    (hs' : stage.guards = true ∨ stage.isOver = true)
    (hb : t'.suspension = m.tracer.suspension) :
    (m.put i ⟨t', m.memory i⟩ (a.next stage ++ rest)).Orderly limit := by
  have hi : m.tracer.roster.slot? i = some slot :=
    h.slot i a (by rw [hact]; exact List.mem_cons_self) slot hslot
  obtain ⟨c₀, hc₀⟩ := h.sound.stack?_of_slot? hi
  have hg₀ := h.guard i slot c₀ hi hc₀
  rw [hact, weight_cons] at hg₀
  have hstacked := h.stacked i
  rw [hact] at hstacked
  obtain rfl := h.rest_eq_nil_of_guards hact hslot hs
  rw [weight_nil] at hg₀
  refine ⟨hr.sound h.sound, ?_, ?_, fun j b hb s hbs => ?_, ?_, ?_, ?_, fun j s c hj hc => ?_,
    fun r hrm => ?_⟩
  · refine h.recalls_put ?_ ?_ (fun j _ => hr.lookup j) ?_ _
    · rw [hr.roster]
    · rw [hr.roster]
    · exact (h.recalls i).congr (by rw [hr.roster]) (by rw [hr.roster]) (hr.lookup i)
  · refine h.stacked_put (Stacked.next hstacked ?_)
    rcases hs' with hs' | hs'
    · exact .inr (.inr ⟨hs', rfl⟩)
    · exact .inr (.inl hs')
  · rw [show (m.put i ⟨t', m.memory i⟩ (a.next stage ++ [])).tracer.roster.slot? j =
      m.tracer.roster.slot? j from hr.slot? j]
    simp only [put, Function.update_apply] at hb
    split at hb
    · rename_i hj
      rw [List.append_nil] at hb
      rw [(Activity.eq_of_mem_next hb).1] at hbs
      rw [hslot' s hbs, hj]
      exact hi
    · exact h.slot j b hb s hbs
  · simp only [put, hb]; exact h.held
  · simp only [put, hb, hr.size]; exact h.held_lt
  · simp only [put, hb]; exact h.free
  · have hj' : m.tracer.roster.slot? j = some s := (hr.slot? j).symm.trans hj
    by_cases hji : j = i
    · subst hji
      rw [hi] at hj'
      cases hj'
      obtain ⟨c', hc', -, hgc⟩ := hr.own c₀ hc₀
      obtain rfl : c' = c := Option.some.inj (hc'.symm.trans hc)
      have hsum : c₀.guard.toInt + (stage.weight - a.stage.weight) =
          m.tracer.suspension.weight slot + stage.weight := by omega
      have := m.tracer.suspension.weight_nonneg slot
      have := m.tracer.suspension.weight_le_one slot
      have := stage.weight_nonneg
      have := stage.weight_le_one
      rw [hgc, CallStack.toInt_guard_add (by omega) (by omega), hsum]
      simp only [put, hb, Function.update_self, weight_next, weight_nil, Int.add_zero]
    · have hne : s ≠ slot := fun heq => hji (h.sound.slot?_inj hj' (heq ▸ hi))
      have hc' : m.tracer.roster.stack? s = some c := (hr.others s hne).symm.trans hc
      simpa [put, hji, hb] using h.guard j s c hj' hc'
  · obtain ⟨rs, hrs, hno⟩ := hr.records
    simp only [put, history, hrs, hr.size] at hrm ⊢
    rw [← List.append_assoc] at hrm
    rcases List.mem_append.mp hrm with hrm | hrm
    · exact h.known r hrm
    · rw [hno r hrm c₀ hc₀, h.sound.number slot c₀ hc₀]
      exact h.sound.slot_lt hi

end put

/-- A step of the innermost call of a thread. -/
theorem advance_turn (h : m.Orderly limit) {who : OsThread} {a : Activity} {rest : List Activity}
    (hact : m.active who.id = a :: rest) :
    ∃ l stage, a.call.Goes who ⟨m.tracer, m.memory who.id⟩ a.stage l stage ∧
      Call.Turn who ⟨m.tracer, m.memory who.id⟩ a.stage l stage ∧
      m.advance who =
        m.put who.id ⟨a.settle l.tracer stage, l.memory⟩ (a.next stage ++ rest) := by
  have ha : a ∈ m.active who.id := by rw [hact]; exact List.mem_cons_self
  have hover := (h.stacked who.id).isOver_eq_false ha
  obtain ⟨l, stage, hgoes, hm⟩ := m.proceed_goes who a rest
  refine ⟨l, stage, hgoes, hgoes.turn hover (h.recalls who.id), ?_⟩
  rw [Machine.advance, hact]
  exact hm

theorem advance (h : m.Orderly limit) (who : OsThread) : (m.advance who).Orderly limit := by
  rcases hact : m.active who.id with _ | ⟨a, rest⟩
  · rw [advance_of_idle hact]
    exact h
  obtain ⟨l, stage, hgoes, hturn, hm⟩ := h.advance_turn hact
  have hb := hgoes.suspension
  rw [hm]
  refine Orderly.settle ?_ a stage
  generalize hst : a.stage = st at hturn
  cases hturn with
  | find hs hs' hslot hm' =>
    refine h.put_find hact (hst ▸ hs) hs' (fun s hs => (hslot s hs).elim (fun hs => ?_) id) hm'
    exact h.slot who.id a (by rw [hact]; exact List.mem_cons_self) s (hst ▸ hs)
  | enlist hslot hq => exact h.put_enlist hact hslot hq rfl rfl
  | rework hslot hslot' hr hs hs' =>
    subst hst
    exact h.put_rework hact hslot hslot' hr hs hs' hb

theorem call (h : m.Orderly limit) (who : OsThread) (c : Call) (counted : Bool) :
    (m.call who c counted).Orderly limit := by
  by_cases hr : m.ready who.id = true
  · have hnote : (m.note who.id c).Orderly limit := by
      refine h.congr ?_ ?_ ?_ ?_ ?_ ?_ <;> simp [history]
    have hready : (m.note who.id c).ready who.id = true := by
      rw [ready, note_active]
      exact hr
    rw [m.call_eq who c counted hr]
    exact (hnote.push hready).advance who
  · rw [Machine.call, if_neg hr]
    exact h

/-- What suspending and resuming have in common: the guards in some slots change. -/
theorem control (h : m.Orderly limit) {t : Tracer} {l : List Slot} {f : CallStack → CallStack}
    (hl : l.Nodup) (hno : ∀ c, (f c).no = c.no)
    (hr : t.roster = l.foldl (fun r s => r.modify s f) m.tracer.roster)
    (hq : t.quota = m.tracer.quota) (hheld : t.suspension.held.Nodup)
    (hlt : ∀ s ∈ t.suspension.held, s < m.tracer.roster.callStacks.size)
    (hfree : t.suspension.suspended = false → t.suspension.held = [])
    (hguard : ∀ i s c, m.tracer.roster.slot? i = some s → m.tracer.roster.stack? s = some c →
      (if s ∈ l then f c else c).guard.toInt = t.suspension.weight s + weight (m.active i))
    {marker : Record} (hmarker : marker.thread = 0)
    (hrec : t.queue.records.toList = m.tracer.queue.records.toList ∨
      t.queue.records.toList = m.tracer.queue.records.toList ++ [marker]) (n : Nat) :
    { m with tracer := t, suspensions := n }.Orderly limit := by
  have hroster := Suspension.foldl_modify_eq f l m.tracer.roster
  obtain ⟨hsize, hstack⟩ := Suspension.foldl_modify (f := f) hl m.tracer.roster
  rw [← hr] at hroster hsize hstack
  have hslot : ∀ i, t.roster.slot? i = m.tracer.roster.slot? i := fun i => by rw [hroster]; rfl
  have hown : ∀ s c', t.roster.stack? s = some c' →
      ∃ c, m.tracer.roster.stack? s = some c ∧ c' = if s ∈ l then f c else c := fun s c' hc' =>
    Suspension.stack?_of_foldl_modify hl (hr ▸ hc')
  have hrecalls : ∀ i, t.roster.Recalls i (m.memory i) := fun i =>
    (h.recalls i).congr (by rw [hroster]) (by rw [hroster]) (by rw [hroster]; rfl)
  refine ⟨?_, hrecalls, h.stacked, fun i a ha s hs => (hslot i).trans (h.slot i a ha s hs), hheld,
    fun s hs => ?_, hfree, fun i s c' hi hc' => ?_, fun r hrm => ?_⟩
  · rw [hq]
    refine h.sound.congr hroster hsize fun s c' hc' => ?_
    obtain ⟨c, hc, rfl⟩ := hown s c' hc'
    refine ⟨c, hc, ?_⟩
    split
    · exact hno c
    · rfl
  · rw [hsize]; exact hlt s hs
  · obtain ⟨c, hc, rfl⟩ := hown s c' hc'
    exact hguard i s c ((hslot i).symm.trans hi) hc
  · rw [hsize]
    rcases hrec with hrec | hrec
    · rw [history, hrec] at hrm
      exact h.known r hrm
    · rw [history, hrec, ← List.append_assoc] at hrm
      rcases List.mem_append.mp hrm with hrm | hrm
      · exact h.known r hrm
      · rw [List.mem_singleton.mp hrm, hmarker]
        exact Nat.zero_le _

/-- Slots that have been read some time before are still in use. -/
theorem suspendSlots (h : m.Orderly limit) {slots : List Slot} (hnodup : slots.Nodup)
    (hlt : ∀ s ∈ slots, s < m.tracer.roster.callStacks.size) :
    (m.suspendSlots slots).Orderly limit := by
  rcases m.suspendSlots_cases slots with heq | ⟨hs, heq⟩ <;> rw [heq]
  · exact h
  refine h.control (f := CallStack.bump) hnodup (fun _ => rfl) (by rfl) (by rfl) (by exact hnodup)
    (by exact hlt) (fun h => by cases h) (fun i s c hi hc => ?_) rfl (Queue.close_records ..) _
  exact Suspension.guard_bump (h.free hs) (h.stacked i).weight_le_one (h.guard i s c hi hc) _ _

/-- All slots that there are. -/
theorem slots_lt (h : m.Orderly limit) : m.tracer.roster.slots.Nodup ∧
    ∀ s ∈ m.tracer.roster.slots, s < m.tracer.roster.callStacks.size := by
  rw [h.sound.slots]
  exact ⟨List.nodup_range, fun _ => List.mem_range.mp⟩

theorem suspend (h : m.Orderly limit) : m.suspend.Orderly limit := by
  rw [suspend_eq_suspendSlots]
  exact h.suspendSlots h.slots_lt.1 h.slots_lt.2

theorem resume (h : m.Orderly limit) : m.resume.Orderly limit := by
  rcases m.resume_cases with heq | ⟨-, heq⟩ <;> rw [heq]
  · exact h
  refine h.control (f := CallStack.release) h.held (fun c => ?_) (by rfl) (by rfl)
    (by exact List.nodup_nil) (fun s hs => by cases hs) (fun _ => by rfl) (fun i s c hi hc => ?_)
    rfl (Queue.reopen_records ..) _
  · unfold CallStack.release; split <;> rfl
  · exact Suspension.guard_release (h.stacked i).weight_nonneg (h.guard i s c hi hc) _

theorem exclude (h : m.Orderly limit) (i : Nat) : (m.exclude i).Orderly limit where
  sound := ⟨h.sound.slots, h.sound.distinct, h.sound.room, h.sound.nextNo, h.sound.number⟩
  recalls j := by
    simp only [Machine.exclude, Machine.remember, Function.update_apply]
    split
    · exact Roster.recalls_memoryOf (r := (m.tracer.roster.exclude i).1) (.inr rfl)
    · rename_i hj
      exact (h.recalls j).congr rfl rfl (Roster.lookup_exclude_of_ne hj)
  stacked := h.stacked
  slot := h.slot
  held := h.held
  held_lt := h.held_lt
  free := h.free
  guard := h.guard
  known := h.known

/-- What holds of the threads keeps holding, whatever happens but a reset. -/
theorem step (h : m.Orderly limit) (x : Move) (hx : x.isReset = false) :
    (m.step x).Orderly limit := by
  cases x with
  | call who c counted => exact h.call who c counted
  | advance who => exact h.advance who
  | suspend => exact h.suspend
  | resume => exact h.resume
  | reset l => cases hx
  | drain =>
    exact h.congr rfl rfl rfl rfl rfl
      (by simp [Machine.step, drain, history, Tracer.drain, Queue.drain])
  | notify => exact h.congr rfl rfl rfl rfl rfl (by simp [Machine.step, history, Tracer.notify])
  | receive => exact h.congr rfl rfl rfl rfl rfl rfl
  | exclude i => exact h.exclude i
  | look i =>
    refine h.remember ?_
    unfold Tracer.look
    rcases hc : m.tracer.roster.consult i (m.memory i) with ⟨st, memory⟩
    have := ((h.recalls i).consult hc).2
    cases st <;> exact this
  | elsewhere i r =>
    simp only [Machine.step]
    split
    · exact h
    · rename_i hr
      refine h.remember fun st hst => ?_
      simp [Roster.recollect, hr] at hst

theorem run (h : m.Orderly limit) (xs : List Move) (hx : ∀ x ∈ xs, x.isReset = false) :
    (m.run xs).Orderly limit := by
  induction xs generalizing m with
  | nil => exact h
  | cons x xs ih =>
    exact ih (h.step x (hx x List.mem_cons_self)) fun y hy => hx y (List.mem_cons_of_mem _ hy)

end Orderly

end Machine

end MethodTrace
