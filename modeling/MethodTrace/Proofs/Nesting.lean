import MethodTrace.Proofs.Level

/-!
# Nested calls

What a thread writes whose calls are nested. `CallTree.reference` says it by recursion on the tree,
with no stack: which frames there are and of what kind depends on whether a root is active, and a
frame's depth on the frames above it. `follow_hooks`: hooks that are called one after the other write
the reference of the calls that are heard at both ends and leave the stack as it was, if no exit is hushed
whose entry has opened a frame, and none is heard whose entry was hushed and that finds something to
close.
-/

namespace MethodTrace

namespace CallTree

mutual

/-- The records of a call at depth `d`. -/
def reference (w : Scribe) (d : Nat) (root : Bool) : CallTree → List Record
  | node f m ret children =>
    match f.kinds root with
    | none => referenceOf w d root children
    | some (k, k') =>
      w.frame (d + 1) k m none ++ referenceOf w (d + 1) (f.below root) children ++
        w.frame (d + 1) k' m ret

def referenceOf (w : Scribe) (d : Nat) (root : Bool) : List CallTree → List Record
  | [] => []
  | t :: ts => reference w d root t ++ referenceOf w d root ts

end

mutual

def height : CallTree → Nat
  | node _ _ _ children => heightOf children + 1

def heightOf : List CallTree → Nat
  | [] => 0
  | t :: ts => max t.height (heightOf ts)

end

mutual

/-- Whether a call in the tree registers its thread. -/
def enrolls : CallTree → Bool
  | node f _ _ children => f.entry.enrolls || enrollsOf children

def enrollsOf : List CallTree → Bool
  | [] => false
  | t :: ts => t.enrolls || enrollsOf ts

end

theorem referenceOf_append (w : Scribe) (d : Nat) (root : Bool) (ts us : List CallTree) :
    referenceOf w d root (ts ++ us) = referenceOf w d root ts ++ referenceOf w d root us := by
  induction ts with
  | nil => rfl
  | cons t ts ih => simp only [List.cons_append, referenceOf, ih, List.append_assoc]

theorem heightOf_append (ts us : List CallTree) :
    heightOf (ts ++ us) = max (heightOf ts) (heightOf us) := by
  induction ts with
  | nil => simp [heightOf]
  | cons t ts ih => simp only [List.cons_append, heightOf, ih, Nat.max_assoc]

theorem enrollsOf_append (ts us : List CallTree) :
    enrollsOf (ts ++ us) = (enrollsOf ts || enrollsOf us) := by
  induction ts with
  | nil => rfl
  | cons t ts ih => simp only [List.cons_append, enrollsOf, ih, Bool.or_assoc]

end CallTree

/-! ### Calls some of which nobody hears -/

/-- A call at each of whose ends tracing may be suspended: then the hook is hushed. -/
inductive PlacedCall where
  | node (family : Family) (method : MethodId) (ret : Option ReturnValue)
      (entryHushed exitHushed : Bool) (children : List PlacedCall)

/-- Those calls of hooks that are not hushed. -/
def heard (js : List (Bool × Call)) : List Call := (js.filter fun j => !j.1).map Prod.snd

theorem heard_append (js ks : List (Bool × Call)) : heard (js ++ ks) = heard js ++ heard ks := by
  simp [heard]

@[simp] theorem heard_nil : heard [] = [] := rfl

@[simp] theorem heard_cons (hushed : Bool) (c : Call) (js : List (Bool × Call)) :
    heard ((hushed, c) :: js) = (if hushed then [] else [c]) ++ heard js := by
  cases hushed <;> rfl

namespace PlacedCall

mutual

/-- The calls of hooks, and which of them are hushed. -/
def hooks : PlacedCall → List (Bool × Call)
  | node f m ret a b children =>
    (a, ⟨f.entry, m, none⟩) :: (hooksOf children ++ [(b, ⟨f.exit, m, ret⟩)])

def hooksOf : List PlacedCall → List (Bool × Call)
  | [] => []
  | p :: ps => hooks p ++ hooksOf ps

end

mutual

/-- What is left if the calls are erased that are hushed. -/
def running : PlacedCall → List CallTree
  | node f m ret a b children =>
    if a || b then runningOf children else [.node f m ret (runningOf children)]

def runningOf : List PlacedCall → List CallTree
  | [] => []
  | p :: ps => running p ++ runningOf ps

end

mutual

/-- Every frame that is opened is closed by its own exit: an exit is hushed alone only where the entry
opens no frame, and an entry only where the exit finds nothing to close. -/
def Whole (root opened : Bool) : PlacedCall → Prop
  | node f _ _ a b children =>
    (a = false → b = true → f.kinds root = none) ∧
    (a = true → b = false → f.closes root opened = false) ∧
    WholeOf (if a || b then root else f.below root)
      (if a || b then opened else opened || (f.kinds root).isSome) children

def WholeOf (root opened : Bool) : List PlacedCall → Prop
  | [] => True
  | p :: ps => Whole root opened p ∧ WholeOf root opened ps

end

end PlacedCall

/-! ### One call after the other -/

theorem Call.effect_of_concerns_eq_false {c : Call} {s : CallStack} (h : c.hook.concerns s = false)
    (w : Scribe) : c.effect w s = (s, []) := by
  simp [Call.effect, h]

theorem Family.entry_concerns_of_kinds_eq_none {f : Family} {s : CallStack}
    (hk : f.kinds s.hasRoot = none) : f.entry.concerns s = false := by
  cases f with
  | method =>
    cases hr : s.hasRoot with
    | true => rw [hr] at hk; cases hk
    | false => exact hr
  | _ => cases hk

theorem Family.exit_concerns (f : Family) (s : CallStack) :
    f.exit.concerns s = f.closes s.hasRoot s.inGraph := by
  cases f <;> rfl

theorem Family.closes_eq_false_of_kinds_eq_none {f : Family} {root : Bool}
    (hk : f.kinds root = none) (opened : Bool) : f.closes root opened = false := by
  cases f with
  | method =>
    cases root with
    | true => cases hk
    | false => rfl
  | _ => cases hk

theorem Family.below_of_kinds_eq_none {f : Family} {root : Bool} (hk : f.kinds root = none) :
    f.below root = root := by
  cases f with
  | method => simp [below]
  | _ => cases hk

namespace PlacedCall
open CallTree

mutual

theorem follow_hooks {s : CallStack} (hs : s.Level) (w : Scribe) :
    (p : PlacedCall) → p.Whole s.hasRoot s.inGraph →
      s.depth.toNat + heightOf p.running < UInt32.size →
      w.follow (heard p.hooks) s = (s, referenceOf w s.depth.toNat s.hasRoot p.running)
  | node f m ret false false children, hw, hd => by
    cases hk : f.kinds s.hasRoot with
    | none =>
      have hentry := Call.effect_of_concerns_eq_false (c := ⟨f.entry, m, none⟩)
        (f.entry_concerns_of_kinds_eq_none hk) w
      have hexit := Call.effect_of_concerns_eq_false (c := ⟨f.exit, m, ret⟩)
        ((f.exit_concerns s).trans (f.closes_eq_false_of_kinds_eq_none hk _)) w
      have hw' : WholeOf s.hasRoot s.inGraph children := by
        have := hw.2.2
        simpa [f.below_of_kinds_eq_none hk, hk] using this
      simp only [running, Bool.or_self, Bool.false_eq_true, ↓reduceIte, heightOf, height] at hd
      have hc := follow_hooksOf hs w children hw' (by omega)
      simp [hooks, running, heard_append, Scribe.follow, Scribe.follow_append, hentry, hexit, hc,
        referenceOf, reference, hk]
    | some kk =>
      obtain ⟨k, k'⟩ := kk
      simp only [running, Bool.or_self, Bool.false_eq_true, ↓reduceIte, heightOf, height] at hd
      have hd1 : s.depth.toNat + 1 < UInt32.size := by omega
      have hdepth : (s.inside f).depth.toNat = s.depth.toNat + 1 := CallStack.toNat_above hd1
      have hw' : WholeOf (s.inside f).hasRoot (s.inside f).inGraph children := by
        have hgraph : (s.inside f).inGraph = (s.inGraph || (f.kinds s.hasRoot).isSome) := by
          simp [CallStack.inside, hk]
        rw [hs.hasRoot_inside, hgraph]
        exact hw.2.2
      have hc := follow_hooksOf (hs.inside hd1 f) w children hw' (by omega)
      simp [hooks, running, heard_append, Scribe.follow, Scribe.follow_append, hs.entry hd1 hk,
        hs.exit hd1 hk, hc, hs.hasRoot_inside, hdepth, referenceOf, reference, hk]
  | node f m ret false true children, hw, hd => by
    have hentry := Call.effect_of_concerns_eq_false (c := ⟨f.entry, m, none⟩)
      (f.entry_concerns_of_kinds_eq_none (hw.1 rfl rfl)) w
    have hc := follow_hooksOf hs w children hw.2.2 hd
    simp [hooks, running, heard_append, Scribe.follow, hentry, hc]
  | node f m ret true false children, hw, hd => by
    have hexit := Call.effect_of_concerns_eq_false (c := ⟨f.exit, m, ret⟩)
      ((f.exit_concerns s).trans (hw.2.1 rfl rfl)) w
    have hc := follow_hooksOf hs w children hw.2.2 hd
    simp [hooks, running, heard_append, Scribe.follow, Scribe.follow_append, hexit, hc]
  | node f m ret true true children, hw, hd => by
    have hc := follow_hooksOf hs w children hw.2.2 hd
    simp [hooks, running, heard_append, hc]

theorem follow_hooksOf {s : CallStack} (hs : s.Level) (w : Scribe) :
    (ps : List PlacedCall) → WholeOf s.hasRoot s.inGraph ps →
      s.depth.toNat + heightOf (runningOf ps) < UInt32.size →
      w.follow (heard (hooksOf ps)) s = (s, referenceOf w s.depth.toNat s.hasRoot (runningOf ps))
  | [], _, _ => rfl
  | p :: ps, hw, hd => by
    simp only [runningOf, heightOf_append] at hd
    have hp := follow_hooks hs w p hw.1 (by omega)
    have hps := follow_hooksOf hs w ps hw.2 (by omega)
    simp only [hooksOf, heard_append, Scribe.follow_append, hp, hps, runningOf, referenceOf_append]

end

mutual

theorem any_enrolls_hooks (root opened : Bool) : (p : PlacedCall) → p.Whole root opened →
    (heard p.hooks).any (·.hook.enrolls) = enrollsOf p.running
  | node f m ret a b children, hw => by
    have hc := any_enrolls_hooksOf _ _ children hw.2.2
    have hexit : f.exit.enrolls = false := by cases f <;> rfl
    -- an entry that is heard alone opens no frame, so it is not one that registers its thread
    have hentry : a = false → b = true → f.entry.enrolls = false := by
      intro ha hb
      have hk := hw.1 ha hb
      cases f with
      | method => rfl
      | _ => cases hk
    cases a <;> cases b <;>
      simp_all [hooks, running, heard_append, enrollsOf, CallTree.enrolls]

theorem any_enrolls_hooksOf (root opened : Bool) : (ps : List PlacedCall) → WholeOf root opened ps →
    (heard (hooksOf ps)).any (·.hook.enrolls) = enrollsOf (runningOf ps)
  | [], _ => rfl
  | p :: ps, hw => by
    simp only [hooksOf, heard_append, List.any_append, runningOf, enrollsOf_append,
      any_enrolls_hooks root opened p hw.1, any_enrolls_hooksOf root opened ps hw.2]

end

end PlacedCall

/-! ### Matching -/

/-- The methods of the entries that are unmatched after one more record, the innermost first, or
nothing if the record is an exit of another method than the innermost. -/
def Record.nest (ms : List UInt16) (r : Record) : Option (List UInt16) :=
  if r.isEntry then some (r.method :: ms)
  else if r.isExit then
    match ms with
    | [] => none
    | m :: ms => if r.method = m then some ms else none
  else some ms

def unmatched (ms : List UInt16) (rs : List Record) : Option (List UInt16) :=
  rs.foldlM Record.nest ms

@[simp] theorem unmatched_nil (ms : List UInt16) : unmatched ms [] = some ms := rfl

theorem unmatched_append (ms : List UInt16) (rs rs' : List Record) :
    unmatched ms (rs ++ rs') = (unmatched ms rs).bind (unmatched · rs') :=
  List.foldlM_append

theorem unmatched_ne_none_of_prefix {ms : List UInt16} {rs rs' : List Record} (h : rs <+: rs')
    (hm : unmatched ms rs' ≠ none) : unmatched ms rs ≠ none := by
  obtain ⟨x, rfl⟩ := h
  intro hn
  rw [unmatched_append, hn] at hm
  exact hm rfl

namespace CallTree

mutual

theorem unmatched_reference {w : Scribe} (hw : w.limit = 0xffffffff) (ms : List UInt16) (d : Nat)
    (active : Bool) : (t : CallTree) →
    d + t.height < UInt32.size → unmatched ms (reference w d active t) = some ms
  | node f m ret children, hd => by
    simp only [height] at hd
    rw [reference]
    split
    · exact unmatched_referenceOf hw ms d active children (by omega)
    · rename_i k k' hk
      have hkinds : k.isEntry = true ∧ k'.isExit = true ∧ k'.isEntry = false := by
        cases f <;> cases active <;> cases hk <;> exact ⟨rfl, rfl, rfl⟩
      have hc := unmatched_referenceOf hw (m.val :: ms) (d + 1) (f.below active) children (by omega)
      have hentry : unmatched ms [w.record k m none] = some (m.val :: ms) := by
        simp [unmatched, Record.nest, Scribe.record, hkinds]
        rfl
      have hexit : unmatched (m.val :: ms) [w.record k' m ret] = some ms := by
        simp [unmatched, Record.nest, Scribe.record, hkinds]
        rfl
      rw [Scribe.frame_of_limit hw (by omega), Scribe.frame_of_limit hw (by omega),
        unmatched_append, unmatched_append, hentry, Option.bind_some, hc, Option.bind_some, hexit]

theorem unmatched_referenceOf {w : Scribe} (hw : w.limit = 0xffffffff) (ms : List UInt16) (d : Nat)
    (active : Bool) : (ts : List CallTree) →
    d + heightOf ts < UInt32.size → unmatched ms (referenceOf w d active ts) = some ms
  | [], _ => rfl
  | t :: ts, hd => by
    simp only [heightOf] at hd
    rw [referenceOf, unmatched_append, unmatched_reference hw ms d active t (by omega),
      Option.bind_some, unmatched_referenceOf hw ms d active ts (by omega)]

end

end CallTree

end MethodTrace
