import MethodTrace.Proofs.Scribe
import MethodTrace.Tracer.CallTree

/-!
# Frames of nested calls

A stack that nested calls have left behind is `Level`: it is in the graph if it has frames, and the
depth of its root is the depth of one of them. An entry leads from such a stack to `CallStack.inside`,
and the exit of the same family leads back (`Level.entry`, `Level.exit`).
-/

namespace MethodTrace

namespace Family

/-- The kinds of the records of a frame, if there is a frame. -/
def kinds (f : Family) (active : Bool) : Option (Kind × Kind) :=
  match f with
  | root => some (if active then (.methodEntry, .methodExit) else (.rootEntry, .rootExit))
  | method => if active then some (.methodEntry, .methodExit) else none
  | marker => some (.markerEntry, .markerExit)

/-- Whether an exit finds something to close, where a root is active or a frame is open. -/
def closes (f : Family) (active opened : Bool) : Bool :=
  match f with
  | root | method => active
  | marker => opened

/-- Whether a root is active in the frame. -/
def below (f : Family) (active : Bool) : Bool := active || f = root

end Family

namespace CallStack

/-- A stack as nested calls leave it behind: its root is one of its frames. -/
structure Level (s : CallStack) : Prop where
  inGraph : s.inGraph = true ↔ 0 < s.depth
  root : s.rootDepth ≤ s.depth

/-- The stack in a frame. -/
def inside (f : Family) (s : CallStack) : CallStack :=
  { s with
    inGraph := true
    depth := above s.depth
    rootDepth := if f = .root ∧ s.hasRoot = false then above s.depth else s.rootDepth }

variable {s : CallStack} {f : Family}

theorem lt_above (h : s.depth.toNat + 1 < UInt32.size) : s.depth < above s.depth := by
  rw [UInt32.lt_iff_toNat_lt, toNat_above h]
  exact Nat.lt_succ_self _

theorem below_above (h : s.depth.toNat + 1 < UInt32.size) : below (above s.depth) = s.depth := by
  apply UInt32.toNat_inj.mp
  rw [toNat_below, toNat_above h, Nat.add_sub_cancel]

namespace Level

theorem new (no : ThreadNo) (name : Option String) : (CallStack.new no name).Level where
  inGraph := by simp [CallStack.new]
  root := by simp [CallStack.new]

theorem inside (h : s.Level) (hd : s.depth.toNat + 1 < UInt32.size) (f : Family) :
    (s.inside f).Level where
  inGraph := ⟨fun _ => above_pos _, fun _ => rfl⟩
  root := by
    simp only [CallStack.inside]
    split
    · exact UInt32.le_refl _
    · exact UInt32.le_trans h.root (UInt32.le_of_lt (lt_above hd))

/-- Outside the graph there is no frame, and without a root no root's depth. -/
theorem rootDepth_eq_zero (h : s.Level) (hr : s.hasRoot = false) : s.rootDepth = 0 := by
  refine Classical.byContradiction fun hne => ?_
  have hpos : 0 < s.rootDepth := UInt32.pos_iff_ne_zero.mpr hne
  have hin := h.inGraph.mpr (UInt32.lt_of_lt_of_le hpos h.root)
  rw [hasRoot_iff.mpr ⟨hin, hpos⟩] at hr
  cases hr

theorem depth_eq_zero (h : s.Level) (hg : s.inGraph = false) : s.depth = 0 := by
  refine Classical.byContradiction fun hne => ?_
  rw [h.inGraph.mpr (UInt32.pos_iff_ne_zero.mpr hne)] at hg
  cases hg

theorem hasRoot_inside (h : s.Level) (f : Family) : (s.inside f).hasRoot = f.below s.hasRoot := by
  have hpos := above_pos s.depth
  rw [hasRoot, Family.below]
  cases hr : s.hasRoot with
  | true => simp [CallStack.inside, hr, (hasRoot_iff.mp hr).2]
  | false => by_cases hf : f = .root <;> simp [CallStack.inside, hr, hf, h.rootDepth_eq_zero hr, hpos]

/-- An entry opens a frame if the calls' families say so. -/
theorem entry (h : s.Level) (hd : s.depth.toNat + 1 < UInt32.size) {k k' : Kind}
    (hk : f.kinds s.hasRoot = some (k, k')) (m : MethodId) (w : Scribe) :
    (Call.mk f.entry m none).effect w s =
      (s.inside f, w.frame (s.depth.toNat + 1) k m none) := by
  have push : ∀ o : Opening, f.entry.opening? s = some o → f.entry.concerns s = true →
      o.push (o.prepare s) = s.inside f → o.kind = k →
      (Call.mk f.entry m none).effect w s =
        (s.inside f, w.frame (s.depth.toNat + 1) k m none) := by
    intro o ho hc hpush hkind
    have hdepth : (s.inside f).depth.toNat = s.depth.toNat + 1 := toNat_above hd
    simp only [Call.effect, hc, ↓reduceIte, Call.deed, ho, hpush, hkind, hdepth]
  have hin : (!s.inGraph && decide (0 < s.depth)) = false := by
    cases hg : s.inGraph with
    | true => rfl
    | false => rw [h.depth_eq_zero hg]; rfl
  cases hr : s.hasRoot with
  | true =>
    have hg := (hasRoot_iff.mp hr).1
    rw [hr] at hk
    cases f with
    | root =>
      cases hk
      refine push .method ?_ rfl ?_ rfl
      · simp [Family.entry, Hook.opening?, hin, hr]
      · simp [Opening.push, Opening.prepare, CallStack.push, CallStack.inside, hr, hg]
    | method =>
      cases hk
      refine push .method rfl hr ?_ rfl
      simp [Opening.push, Opening.prepare, CallStack.push, CallStack.inside, hg]
    | marker =>
      cases hk
      exact push .marker rfl rfl rfl rfl
  | false =>
    rw [hr] at hk
    cases f with
    | root =>
      cases hk
      refine push .root ?_ rfl ?_ rfl
      · simp [Family.entry, Hook.opening?, hin, hr]
      · cases hg : s.inGraph with
        | true =>
          have : s.depth ≠ 0 := UInt32.pos_iff_ne_zero.mp (h.inGraph.mp hg)
          simp [Opening.push, Opening.prepare, CallStack.push, CallStack.inside, setRootDepth, hr,
            hg, this]
        | false =>
          simp [Opening.push, Opening.prepare, CallStack.push, CallStack.inside, setRootDepth,
            setInGraph, hr, h.depth_eq_zero hg]
    | method => cases hk
    | marker =>
      cases hk
      exact push .marker rfl rfl rfl rfl

/-- The exit takes the frame back. -/
theorem exit (h : s.Level) (hd : s.depth.toNat + 1 < UInt32.size) {k k' : Kind}
    (hk : f.kinds s.hasRoot = some (k, k')) (m : MethodId) (ret : Option ReturnValue) (w : Scribe) :
    (Call.mk f.exit m ret).effect w (s.inside f) =
      (s, w.frame (s.depth.toNat + 1) k' m ret) := by
  have hne : s.rootDepth ≠ above s.depth :=
    UInt32.ne_of_lt (UInt32.lt_of_le_of_lt h.root (lt_above hd))
  have hpop : f.exit.pop (s.inside f) = s := by
    have hb : CallStack.below (above s.depth) = s.depth := below_above hd
    have hg : (if s.depth = 0 then false else true) = s.inGraph := by
      cases hg : s.inGraph with
      | true => rw [if_neg (UInt32.pos_iff_ne_zero.mp (h.inGraph.mp hg))]
      | false => rw [if_pos (h.depth_eq_zero hg)]
    have hr : (if CallStack.below (s.inside f).depth = 0 then 0
        else if f.exit ≠ .markerExit ∧ (s.inside f).rootDepth = (s.inside f).depth then 0
        else (s.inside f).rootDepth) = s.rootDepth := by
      simp only [CallStack.inside, hb]
      by_cases hf : f = .root ∧ s.hasRoot = false
      · have hm : Family.root.exit ≠ .markerExit := by decide
        simp [hf, hm, h.rootDepth_eq_zero hf.2]
      · simp only [hf, hne, and_false, ↓reduceIte]
        split
        · rename_i hd0
          have := h.root
          rw [hd0] at this
          exact (UInt32.le_zero_iff.mp this).symm
        · rfl
    rw [Hook.pop_eq, hr]
    simp only [CallStack.inside, hb, hg]
  have hroot : f ≠ .marker → (s.inside f).hasRoot = true := by
    intro hf
    rw [h.hasRoot_inside]
    cases f with
    | root => simp [Family.below]
    | marker => exact absurd rfl hf
    | method => cases hr : s.hasRoot <;> simp_all [Family.kinds, Family.below]
  have hdepth : (s.inside f).depth.toNat = s.depth.toNat + 1 := toNat_above hd
  have hkind : f.exit.exitKind s = k' := by
    cases hr : s.hasRoot with
    | true =>
      have h0 := UInt32.pos_iff_ne_zero.mp (hasRoot_iff.mp hr).2
      cases f <;> simp_all [Family.kinds, Family.exit, Hook.exitKind]
    | false =>
      have h0 := h.rootDepth_eq_zero hr
      cases f <;> simp_all [Family.kinds, Family.exit, Hook.exitKind]
  have hc : f.exit.concerns (s.inside f) = true := by
    cases f with
    | root | method => exact hroot (by simp)
    | marker => rfl
  have ho : f.exit.opening? (s.inside f) = none ∧ f.exit.isExit = true := by cases f <;> exact ⟨rfl, rfl⟩
  simp only [Call.effect, hc, ↓reduceIte, Call.deed, ho, hpop, hkind, hdepth]

end Level

end CallStack

end MethodTrace
