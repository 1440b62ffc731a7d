import MethodTrace.Proofs.Effect

/-!
# What a thread's calls write

`Call.effect` is a call as its own thread sees it: from one stack to the next, with the record of the
frame. `Scribe.follow` does one call after the other. Times are left out of the records.
-/

namespace MethodTrace

namespace Record

/-- The record but for its time. -/
def timeless (r : Record) : Record := { r with timestamp := 0 }

def isOf (r : Record) (k : Kind) : Bool := r.kind = k.code

def isEntry (r : Record) : Bool := r.isOf .rootEntry || r.isOf .methodEntry || r.isOf .markerEntry

def isExit (r : Record) : Bool := r.isOf .rootExit || r.isOf .methodExit || r.isOf .markerExit

@[simp] theorem isOf_encode (e : Event) (k : Kind) : e.encode.isOf k = decide (e.kind = k) := by
  obtain ⟨k', m, no, time, ret⟩ := e
  cases k' <;> cases k <;> rfl

@[simp] theorem isEntry_encode (e : Event) : e.encode.isEntry = e.kind.isEntry := by
  obtain ⟨k, m, no, time, ret⟩ := e
  cases k <;> rfl

@[simp] theorem isExit_encode (e : Event) : e.encode.isExit = e.kind.isExit := by
  obtain ⟨k, m, no, time, ret⟩ := e
  cases k <;> rfl

theorem isOf_eq {r : Record} {k : Kind} (h : r.isOf k = true) (k' : Kind) :
    r.isOf k' = decide (k = k') := by
  have hr : r.kind = k.code := by simpa [isOf] using h
  rw [isOf, hr]
  cases k <;> cases k' <;> rfl

@[simp] theorem isEntry_timeless (r : Record) : r.timeless.isEntry = r.isEntry := rfl

@[simp] theorem isExit_timeless (r : Record) : r.timeless.isExit = r.isExit := rfl

end Record

namespace CallStack

def withGuard (g : Int32) (s : CallStack) : CallStack := { s with guard := g }

theorem hasRoot_iff {s : CallStack} : s.hasRoot = true ↔ s.inGraph = true ∧ 0 < s.rootDepth := by
  simp [hasRoot]

theorem toNat_above {d : UInt32} (h : d.toNat + 1 < UInt32.size) :
    (above d).toNat = d.toNat + 1 := by
  unfold above
  split
  · subst d; cases Nat.lt_irrefl _ h
  · rw [UInt32.toNat_add]; exact Nat.mod_eq_of_lt h

theorem toNat_below (d : UInt32) : (below d).toNat = d.toNat - 1 := by
  unfold below
  split
  · subst d; rfl
  · rename_i h
    have : 1 ≤ d := by
      rw [UInt32.le_iff_toNat_le]
      exact Nat.pos_of_ne_zero fun h0 => h (UInt32.toNat_inj.mp h0)
    rw [UInt32.toNat_sub_of_le _ _ this]
    rfl

theorem above_pos (d : UInt32) : 0 < above d := by
  unfold above
  split
  · subst d; decide
  · rename_i h
    rw [UInt32.lt_iff_toNat_lt, UInt32.toNat_add]
    have := d.toNat_lt
    have : d.toNat ≠ 4294967295 := fun h' => h (UInt32.toNat_inj.mp h')
    show 0 < (d.toNat + 1) % 4294967296
    omega

end CallStack

/-- In whose name records are written, and which and how. -/
structure Scribe where
  no : ThreadNo
  limit : UInt32
  captures : Bool

namespace Scribe

/-- That the thread was registered. -/
def created (w : Scribe) : Record := Event.encode ⟨.threadCreated, .none, w.no, ⟨0⟩, none⟩

def record (w : Scribe) (k : Kind) (m : MethodId) (ret : Option ReturnValue) : Record :=
  Event.encode ⟨k, m, w.no, ⟨0⟩, if w.captures then ret else none⟩

/-- The record of a frame at depth `d`, if there is one. -/
def frame (w : Scribe) (d : Nat) (k : Kind) (m : MethodId) (ret : Option ReturnValue) :
    List Record :=
  if d ≤ w.limit.toNat then [w.record k m ret] else []

theorem frame_of_limit {w : Scribe} (h : w.limit = 0xffffffff) {d : Nat} (hd : d < UInt32.size)
    (k : Kind) (m : MethodId) (ret : Option ReturnValue) :
    w.frame d k m ret = [w.record k m ret] := by
  have : d ≤ w.limit.toNat := by rw [h]; exact Nat.le_of_lt_succ hd
  rw [frame, if_pos this]

end Scribe

namespace Call

/-- What an entry writes that has registered its thread. -/
def greeting (c : Call) (w : Scribe) (fresh : Bool) : List Record :=
  if c.hook.enrolls && fresh then [w.created] else []

theorem greeting_of_isExit {c : Call} (h : c.hook.isExit = true) (w : Scribe) (fresh : Bool) :
    c.greeting w fresh = [] := by
  simp [greeting, Hook.enrolls_of_isExit h]

/-- What a call does that its stack concerns. -/
def deed (c : Call) (w : Scribe) (s : CallStack) : CallStack × List Record :=
  match c.hook.opening? s with
  | some o =>
    let s := o.push (o.prepare s)
    (s, w.frame s.depth.toNat o.kind c.method none)
  | none =>
    if c.hook.isExit then
      let s' := c.hook.pop s
      (s', w.frame s.depth.toNat (c.hook.exitKind s') c.method c.ret)
    else (s, [])

def effect (c : Call) (w : Scribe) (s : CallStack) : CallStack × List Record :=
  if c.hook.concerns s then c.deed w s else (s, [])

end Call

namespace Scribe

/-- The effect of calls one after the other. -/
def follow (w : Scribe) : List Call → CallStack → CallStack × List Record
  | [], s => (s, [])
  | c :: cs, s =>
    let (s, rs) := c.effect w s
    let (s, rs') := w.follow cs s
    (s, rs ++ rs')

theorem follow_append (w : Scribe) (cs ds : List Call) (s : CallStack) :
    w.follow (cs ++ ds) s =
      ((w.follow ds (w.follow cs s).1).1, (w.follow cs s).2 ++ (w.follow ds (w.follow cs s).1).2) := by
  induction cs generalizing s with
  | nil => rfl
  | cons c cs ih => simp only [List.cons_append, follow, ih, List.append_assoc]

theorem follow_concat (w : Scribe) (cs : List Call) (c : Call) (s : CallStack) :
    w.follow (cs ++ [c]) s =
      ((c.effect w (w.follow cs s).1).1, (w.follow cs s).2 ++ (c.effect w (w.follow cs s).1).2) := by
  simp [follow_append, follow]

end Scribe

/-! ### What stays as it is -/

section withGuard
variable (s : CallStack) (g : Int32)

theorem Opening.prepare_withGuard (o : Opening) :
    o.prepare (s.withGuard g) = (o.prepare s).withGuard g := by
  cases o with
  | root =>
    by_cases h : s.depth = 0 <;> simp [prepare, CallStack.withGuard, CallStack.setInGraph, h]
  | _ => rfl

theorem Opening.push_withGuard (o : Opening) : o.push (s.withGuard g) = (o.push s).withGuard g := by
  cases o <;> rfl

theorem Hook.pop_withGuard (h : Hook) : h.pop (s.withGuard g) = (h.pop s).withGuard g := by
  rw [pop_eq, pop_eq]
  rfl

end withGuard

namespace Call

theorem deed_no (c : Call) (w : Scribe) (s : CallStack) : (c.deed w s).1.no = s.no := by
  unfold deed
  split
  · simp
  · split <;> simp

theorem deed_name (c : Call) (w : Scribe) (s : CallStack) : (c.deed w s).1.name = s.name := by
  unfold deed
  split
  · simp
  · split <;> simp

theorem effect_no (c : Call) (w : Scribe) (s : CallStack) : (c.effect w s).1.no = s.no := by
  unfold effect
  split
  · exact c.deed_no w s
  · rfl

/-- A call does the same whatever the guard. -/
theorem deed_withGuard (c : Call) (w : Scribe) (s : CallStack) (g : Int32) :
    c.deed w (s.withGuard g) = ((c.deed w s).1.withGuard g, (c.deed w s).2) := by
  have hopen : c.hook.opening? (s.withGuard g) = c.hook.opening? s := rfl
  simp only [deed, hopen]
  cases c.hook.opening? s with
  | some o => simp only [Opening.prepare_withGuard, Opening.push_withGuard]; rfl
  | none =>
    dsimp only
    split
    · simp only [Hook.pop_withGuard]; rfl
    · rfl

end Call

theorem Hook.concerns_of_enrolls {h : Hook} (he : h.enrolls = true) (s : CallStack) :
    h.concerns s = true := by
  cases h <;> first | rfl | cases he

namespace Scribe

theorem follow_no (w : Scribe) (cs : List Call) (s : CallStack) : (w.follow cs s).1.no = s.no := by
  induction cs generalizing s with
  | nil => rfl
  | cons c cs ih => exact (ih _).trans (c.effect_no w s)

/-- On a thread that is not registered only an entry has an effect that registers it. -/
theorem follow_new (w : Scribe) {cs : List Call} (h : ∀ c ∈ cs, c.hook.enrolls = false)
    (no : ThreadNo) (name : Option String) :
    w.follow cs (.new no name) = (.new no name, []) := by
  induction cs with
  | nil => rfl
  | cons c cs ih =>
    have hc : c.hook.concerns (.new no name) = false := by
      have := h c List.mem_cons_self
      cases hh : c.hook <;> first | rfl | (rw [hh] at this; cases this)
    simp only [follow, Call.effect, hc, Bool.false_eq_true, ↓reduceIte,
      ih fun c hc => h c (List.mem_cons_of_mem _ hc), List.append_nil]

end Scribe

end MethodTrace
