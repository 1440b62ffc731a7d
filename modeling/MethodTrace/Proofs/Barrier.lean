import Mathlib.Data.List.Basic
import MethodTrace.Proofs.Membership

/-!
# One barrier and its threads

Guards are taken and dropped, and taken once more for every time that a suspension lists a thread, in
any order: also a guard that was taken before a suspension may be dropped during it or after it. The
guard of a thread is a number all the same of which it is known whence it comes (`Balanced.guard`), so
resuming never finds a guard too low to be released. All this as long as no thread is listed so often
that its counter wraps around (`Barrier.Fits`).
-/

namespace MethodTrace

namespace CallStack
variable {c : CallStack} {n : Nat}

theorem toInt_guard_add_ofNat (h : c.guard.toInt + n < 2147483648) :
    (c.guard + Int32.ofNat n).toInt = c.guard.toInt + n := by
  have := c.guard.le_toInt
  rw [← Int32.ofInt_eq_ofNat, toInt_guard_add (by omega) h]

theorem toInt_guard_sub_ofNat (h : n ≤ c.guard.toInt) :
    (c.guard - Int32.ofNat n).toInt = c.guard.toInt - n := by
  have := c.guard.toInt_lt
  rw [← Int32.ofInt_eq_ofNat, Int32.sub_eq_add_neg, ← Int32.ofInt_neg,
    toInt_guard_add (by omega) (by omega), Int.sub_eq_add_neg]

end CallStack

namespace Suspension

/-- Every thread once for every time it is listed. -/
theorem stack?_bumpAll (r : Roster) (l : List Slot) (s : Slot) : (bumpAll r l).stack? s =
    (r.stack? s).map fun c => { c with guard := c.guard + Int32.ofNat (l.count s) } := by
  induction l generalizing r with
  | nil => simp [bumpAll]
  | cons x l ih =>
    show (bumpAll (r.modify x CallStack.bump) l).stack? s = _
    rw [ih]
    by_cases hs : s = x
    · subst hs
      rw [Roster.stack?_modify_self, List.count_cons_self, Option.map_map]
      congr 1
      funext c
      simp only [Function.comp_apply, CallStack.bump, Int32.ofNat_add, CallStack.mk.injEq, true_and]
      exact Int32.add_assoc _ _ _ |>.trans (congrArg _ (Int32.add_comm _ _))
    · rw [Roster.stack?_modify_of_ne hs, List.count_cons_of_ne (Ne.symm hs)]

/-- Nothing stops at zero if no guard is lower than it is often listed. -/
theorem stack?_releaseAll {r : Roster} {l : List Slot} {s : Slot}
    (h : ∀ c, r.stack? s = some c → l.count s ≤ c.guard.toInt) : (releaseAll r l).stack? s =
    (r.stack? s).map fun c => { c with guard := c.guard - Int32.ofNat (l.count s) } := by
  induction l generalizing r with
  | nil => simp [releaseAll]
  | cons x l ih =>
    show (releaseAll (r.modify x CallStack.release) l).stack? s = _
    by_cases hs : s = x
    · subst hs
      rw [List.count_cons_self] at h
      have hpos (c : CallStack) (hc : r.stack? s = some c) : 0 < c.guard.toInt := by
        have := h c hc
        omega
      rw [ih fun c' hc' => ?_]
      · rw [Roster.stack?_modify_self, List.count_cons_self]
        rcases hc : r.stack? s with _ | c
        · rfl
        · simp only [Option.map_some, CallStack.release_of_pos (hpos c hc), CallStack.dropGuard,
            Int32.ofNat_add, Option.some.injEq, CallStack.mk.injEq, true_and]
          exact (Int32.sub_sub _ _ _).trans (congrArg _ (Int32.add_comm _ _))
      · rw [Roster.stack?_modify_self] at hc'
        obtain ⟨c, hc, rfl⟩ := Option.map_eq_some_iff.mp hc'
        have := h c hc
        rw [CallStack.release_of_pos (hpos c hc), CallStack.toInt_guard_dropGuard (hpos c hc)]
        omega
    · rw [List.count_cons_of_ne (Ne.symm hs)] at h ⊢
      rw [ih fun c hc => h c ((Roster.stack?_modify_of_ne hs).symm.trans hc),
        Roster.stack?_modify_of_ne hs]

end Suspension

/-- A barrier with its threads, the guards that have been granted and not dropped yet, and what the
callbacks of suspending and resuming have to do with. -/
structure Barrier (σ : Type) where
  suspension : Suspension
  roster : Roster
  granted : List Slot
  outside : σ

inductive BarrierMove (σ : Type) where
  | enter (s : Slot)
  /-- Drops a guard that has been granted. -/
  | drop (s : Slot)
  | suspend (slots : List Slot) (after : UInt64 → σ → σ)
  | resume (before : σ → σ)

namespace Barrier
variable {σ : Type}

def new (r : Roster) (x : σ) : Barrier σ := ⟨.new, r, [], x⟩

/-- Grants a guard, if it has been taken. -/
def grant (b : Barrier σ) (s : Slot) : Option CallStack → Barrier σ
  | some c => { b with roster := b.roster.modify s fun _ => c, granted := s :: b.granted }
  | none => b

/-- Suspends or resumes, unless that is refused. -/
def control (b : Barrier σ) (callback : UInt64 → σ → σ) :
    Except ControlError (Suspension × Roster) → Barrier σ
  | .ok (suspension, roster) =>
    { b with
      suspension := suspension
      roster := roster
      outside := callback suspension.epoch b.outside }
  | .error _ => b

def step (b : Barrier σ) : BarrierMove σ → Barrier σ
  | .enter s => b.grant s ((b.roster.stack? s).bind CallStack.takeGuard)
  | .drop s =>
    if s ∈ b.granted then
      { b with roster := b.roster.modify s CallStack.dropGuard, granted := b.granted.erase s }
    else b
  | .suspend slots after => b.control after (b.suspension.suspend b.roster slots)
  | .resume before => b.control (fun _ => before) (b.suspension.resume b.roster)

def run (b : Barrier σ) (moves : List (BarrierMove σ)) : Barrier σ := moves.foldl step b

/-- The guard of a thread is within the range of its counter. -/
def Fits (b : Barrier σ) (s : Slot) : Prop :=
  b.granted.count s + b.suspension.held.count s < 2147483648

instance (b : Barrier σ) (s : Slot) : Decidable (b.Fits s) := inferInstanceAs (Decidable (_ < _))

structure Balanced (b : Barrier σ) (s : Slot) : Prop where
  guard : ∀ c, b.roster.stack? s = some c →
    c.guard.toInt = b.granted.count s + b.suspension.held.count s
  live : b.granted.count s ≤ 1

variable {b : Barrier σ} {s : Slot} {c : CallStack}

theorem step_enter_of_none {s' : Slot}
    (h : (b.roster.stack? s').bind CallStack.takeGuard = none) : b.step (.enter s') = b :=
  congrArg (b.grant s') h

theorem step_enter_of_some {s' : Slot}
    (h : (b.roster.stack? s').bind CallStack.takeGuard = some c) : b.step (.enter s') = { b with
      roster := b.roster.modify s' fun _ => c
      granted := s' :: b.granted } :=
  congrArg (b.grant s') h

theorem step_enter {s' : Slot} (hc : b.roster.stack? s' = some c) (hfree : c.guarded = false) :
    b.step (.enter s') = { b with
      roster := b.roster.modify s' fun _ => c.bump
      granted := s' :: b.granted } := by
  have htake : c.takeGuard = some c.bump := by rw [CallStack.takeGuard, hfree]; rfl
  exact step_enter_of_some (by rw [hc, Option.bind_some, htake])

theorem step_drop {s' : Slot} (h : s' ∈ b.granted) : b.step (.drop s') = { b with
    roster := b.roster.modify s' CallStack.dropGuard
    granted := b.granted.erase s' } :=
  if_pos h

theorem step_drop_of_not_mem {s' : Slot} (h : s' ∉ b.granted) : b.step (.drop s') = b := if_neg h

theorem step_suspend_of_suspended (h : b.suspension.suspended = true) (slots : List Slot)
    (after : UInt64 → σ → σ) : b.step (.suspend slots after) = b := by
  have hrefused : b.suspension.suspend b.roster slots = .error .alreadySuspended := if_pos h
  exact congrArg (b.control after) hrefused

theorem step_suspend (h : b.suspension.suspended = false) (slots : List Slot)
    (after : UInt64 → σ → σ) : b.step (.suspend slots after) = { b with
      suspension := ⟨true, b.suspension.epoch + 1, slots⟩
      roster := Suspension.bumpAll b.roster slots
      outside := after (b.suspension.epoch + 1) b.outside } := by
  have hgranted : b.suspension.suspend b.roster slots =
      .ok (⟨true, b.suspension.epoch + 1, slots⟩, Suspension.bumpAll b.roster slots) :=
    if_neg (Bool.eq_false_iff.mp h)
  exact congrArg (b.control after) hgranted

theorem step_resume_of_running (h : b.suspension.suspended = false) (before : σ → σ) :
    b.step (.resume before) = b := by
  have hrefused : b.suspension.resume b.roster = .error .notSuspended :=
    if_neg (Bool.eq_false_iff.mp h)
  exact congrArg (b.control fun _ => before) hrefused

theorem step_resume (h : b.suspension.suspended = true) (before : σ → σ) :
    b.step (.resume before) = { b with
      suspension := ⟨false, b.suspension.epoch, []⟩
      roster := Suspension.releaseAll b.roster b.suspension.held
      outside := before b.outside } := by
  have hgranted : b.suspension.resume b.roster =
      .ok (⟨false, b.suspension.epoch, []⟩, Suspension.releaseAll b.roster b.suspension.held) :=
    if_pos h
  exact congrArg (b.control fun _ => before) hgranted

theorem suspension_enter (b : Barrier σ) (s : Slot) :
    (b.step (.enter s)).suspension = b.suspension := by
  rcases h : (b.roster.stack? s).bind CallStack.takeGuard with _ | c
  · rw [step_enter_of_none h]
  · rw [step_enter_of_some h]

theorem suspension_drop (b : Barrier σ) (s : Slot) :
    (b.step (.drop s)).suspension = b.suspension := by
  by_cases h : s ∈ b.granted
  · rw [step_drop h]
  · rw [step_drop_of_not_mem h]

/-- While tracing is not suspended nobody is listed. -/
theorem held_step (h : b.suspension.suspended = false → b.suspension.held = [])
    (x : BarrierMove σ) :
    (b.step x).suspension.suspended = false → (b.step x).suspension.held = [] := by
  cases x with
  | enter s => rwa [suspension_enter]
  | drop s => rwa [suspension_drop]
  | suspend slots after =>
    cases hs : b.suspension.suspended with
    | true => rwa [step_suspend_of_suspended hs]
    | false =>
      rw [step_suspend hs]
      exact nofun
  | resume before =>
    cases hs : b.suspension.suspended with
    | true =>
      rw [step_resume hs]
      exact fun _ => rfl
    | false => rwa [step_resume_of_running hs]

theorem held_run (h : b.suspension.suspended = false → b.suspension.held = [])
    (moves : List (BarrierMove σ)) :
    (b.run moves).suspension.suspended = false → (b.run moves).suspension.held = [] := by
  induction moves generalizing b with
  | nil => exact h
  | cons x xs ih => exact ih (held_step h x)

namespace Balanced

theorem new {r : Roster} (hr : ∀ s c, r.stack? s = some c → c.guard = 0) (x : σ) (s : Slot) :
    (Barrier.new r x).Balanced s where
  guard c hc := by
    rw [hr s c hc]
    rfl
  live := Nat.zero_le 1

theorem enter (h : b.Balanced s) (s' : Slot) : (b.step (.enter s')).Balanced s := by
  rcases hc : b.roster.stack? s' with _ | c
  · rwa [step_enter_of_none (by rw [hc]; rfl)]
  cases hfree : c.guarded with
  | true => rwa [step_enter_of_none (by rw [hc]; exact if_pos hfree)]
  | false =>
    rw [step_enter hc hfree]
    by_cases hs : s = s'
    · subst hs
      have hguard := h.guard c hc
      have hzero := CallStack.guarded_eq_false_iff.mp hfree
      refine ⟨fun d hd => ?_, ?_⟩
      · rw [Roster.stack?_modify_self, hc] at hd
        cases hd
        show c.bump.guard.toInt = (s :: b.granted).count s + b.suspension.held.count s
        rw [CallStack.toInt_guard_bump (by omega), List.count_cons_self]
        omega
      · show (s :: b.granted).count s ≤ 1
        rw [List.count_cons_self]
        omega
    · refine ⟨fun d hd => ?_, ?_⟩
      · rw [Roster.stack?_modify_of_ne hs] at hd
        rw [List.count_cons_of_ne (Ne.symm hs)]
        exact h.guard d hd
      · rw [List.count_cons_of_ne (Ne.symm hs)]
        exact h.live

theorem drop (h : b.Balanced s) (s' : Slot) : (b.step (.drop s')).Balanced s := by
  by_cases hmem : s' ∈ b.granted
  · rw [step_drop hmem]
    by_cases hs : s = s'
    · subst hs
      have hpos : 0 < b.granted.count s := List.count_pos_iff.mpr hmem
      refine ⟨fun d hd => ?_, Nat.le_trans (List.erase_sublist.count_le s) h.live⟩
      rw [Roster.stack?_modify_self] at hd
      obtain ⟨c, hc, rfl⟩ := Option.map_eq_some_iff.mp hd
      have hguard := h.guard c hc
      show c.dropGuard.guard.toInt = (b.granted.erase s).count s + b.suspension.held.count s
      rw [CallStack.toInt_guard_dropGuard (by omega), List.count_erase_self]
      omega
    · refine ⟨fun d hd => ?_, ?_⟩
      · rw [Roster.stack?_modify_of_ne hs] at hd
        rw [List.count_erase_of_ne hs]
        exact h.guard d hd
      · rw [List.count_erase_of_ne hs]
        exact h.live
  · rwa [step_drop_of_not_mem hmem]

theorem held_le (h : b.Balanced s) (hc : b.roster.stack? s = some c) :
    b.suspension.held.count s ≤ c.guard.toInt := by
  have := h.guard c hc
  omega

theorem step (h : b.Balanced s) (hheld : b.suspension.suspended = false → b.suspension.held = [])
    (x : BarrierMove σ) (hfits : (b.step x).Fits s) : (b.step x).Balanced s := by
  cases x with
  | enter s' => exact h.enter s'
  | drop s' => exact h.drop s'
  | suspend slots after =>
    cases hs : b.suspension.suspended with
    | true => rwa [step_suspend_of_suspended hs]
    | false =>
      rw [step_suspend hs] at hfits ⊢
      have hfits : b.granted.count s + slots.count s < 2147483648 := hfits
      refine ⟨fun d hd => ?_, h.live⟩
      rw [Suspension.stack?_bumpAll] at hd
      obtain ⟨c, hc, rfl⟩ := Option.map_eq_some_iff.mp hd
      have hguard := h.guard c hc
      rw [hheld hs, List.count_nil] at hguard
      show (c.guard + Int32.ofNat (slots.count s)).toInt = b.granted.count s + slots.count s
      rw [CallStack.toInt_guard_add_ofNat (by omega)]
      omega
  | resume before =>
    cases hs : b.suspension.suspended with
    | true =>
      rw [step_resume hs]
      refine ⟨fun d hd => ?_, h.live⟩
      rw [Suspension.stack?_releaseAll fun c => h.held_le] at hd
      obtain ⟨c, hc, rfl⟩ := Option.map_eq_some_iff.mp hd
      have hguard := h.guard c hc
      show (c.guard - Int32.ofNat (b.suspension.held.count s)).toInt = b.granted.count s + (0 : Nat)
      rw [CallStack.toInt_guard_sub_ofNat (h.held_le hc)]
      omega
    | false => rwa [step_resume_of_running hs]

theorem run (h : b.Balanced s) (hheld : b.suspension.suspended = false → b.suspension.held = [])
    (moves : List (BarrierMove σ)) (hfits : ∀ n, (b.run (moves.take n)).Fits s) :
    (b.run moves).Balanced s := by
  induction moves generalizing b with
  | nil => exact h
  | cons x xs ih =>
    exact ih (h.step hheld x (hfits 1)) (held_step hheld x) fun n => hfits (n + 1)

theorem guarded_eq_false_iff (h : b.Balanced s) (hc : b.roster.stack? s = some c) :
    c.guarded = false ↔ c.guard = 0 := by
  have := h.guard c hc
  rw [CallStack.guarded_eq_false_iff, ← Int32.toInt_inj, Int32.toInt_zero]
  omega

end Balanced

/-- What becomes of the guard of a thread: `c` is the state of thread `s`. -/
structure Accounts (b : Barrier σ) (s : Slot) (c : CallStack) : Prop where
  guard : c.guard.toInt = b.granted.count s + b.suspension.held.count s
  live : b.granted.count s ≤ 1
  nonneg : 0 ≤ c.guard
  granted : c.takeGuard.isSome = true ↔ c.guard = 0
  taken : c.guard = 0 → (b.step (.enter s)).granted = s :: b.granted
  refused : c.guard ≠ 0 → b.step (.enter s) = b
  /-- Granting and dropping leave the list of the suspension in force alone. -/
  kept : ∀ s', (b.step (.enter s')).suspension = b.suspension ∧
    (b.step (.drop s')).suspension = b.suspension
  suspended : b.suspension.suspended = false → ∀ slots after,
    (b.step (.suspend slots after)).suspension.held = slots ∧
      (b.step (.suspend slots after)).roster.stack? s =
        some { c with guard := c.guard + Int32.ofNat (slots.count s) }
  resumed : b.suspension.suspended = true → ∀ before,
    (b.step (.resume before)).suspension.held = [] ∧
      (b.step (.resume before)).roster.stack? s =
        some { c with guard := c.guard - Int32.ofNat (b.suspension.held.count s) } ∧
      (c.guard - Int32.ofNat (b.suspension.held.count s)).toInt =
        c.guard.toInt - b.suspension.held.count s

theorem Balanced.accounts (h : b.Balanced s) (hc : b.roster.stack? s = some c) :
    b.Accounts s c where
  guard := h.guard c hc
  live := h.live
  nonneg := by
    have := h.guard c hc
    rw [Int32.le_iff_toInt_le, Int32.toInt_zero]
    omega
  granted := by
    rw [← h.guarded_eq_false_iff hc, CallStack.takeGuard]
    cases c.guarded <;> simp
  taken hguard := by
    rw [step_enter hc ((h.guarded_eq_false_iff hc).mpr hguard)]
  refused hguard := by
    have hheld : c.guarded = true :=
      Bool.not_eq_false _ ▸ mt (h.guarded_eq_false_iff hc).mp hguard
    exact step_enter_of_none (by rw [hc]; exact if_pos hheld)
  kept s' := ⟨b.suspension_enter s', b.suspension_drop s'⟩
  suspended hs slots after := by
    rw [step_suspend hs, Suspension.stack?_bumpAll, hc]
    exact ⟨rfl, rfl⟩
  resumed hs before := by
    rw [step_resume hs, Suspension.stack?_releaseAll fun c => h.held_le, hc]
    exact ⟨rfl, rfl, CallStack.toInt_guard_sub_ofNat (h.held_le hc)⟩

end Barrier

end MethodTrace
