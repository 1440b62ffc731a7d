import MethodTrace.Proofs.Methods
import MethodTrace.Proofs.Poise
import MethodTrace.Proofs.Standstill

/-!
# First invocations

The methods that a tracer knows to be invoked are those of the frames that have been opened as roots
or below active roots since the last reset, and those that are being told: a call marks its method
when it acts, before its frame is open (`Invocations.Kept`). Who listens is told of each of them once,
since only a call that finds its method unmarked tells of it (`Invocations.Heard`).
-/

namespace MethodTrace

/-- Whether the frame that an entry opens on a stack is a root's, or stands below an active root. -/
def Hook.invokes (h : Hook) (s : CallStack) : Bool :=
  match h with
  | .rootEntry => true
  | .methodEntry | .markerEntry => s.hasRoot
  | .rootExit | .methodExit | .markerExit => false

namespace Hook
variable {h : Hook} {s : CallStack} {o : Opening}

/-- What the entry notes is what is said of the frame. -/
theorem invokes_eq_counts (hs : s.Sane) (hc : h.concerns s = true) (ho : h.opening? s = some o) :
    h.invokes s = Call.counts o s := by
  cases h with
  | rootEntry =>
    rcases opening?_cases hs hc ho with ⟨rfl, -⟩ | ⟨rfl, -⟩ | rfl
    · rfl
    · rfl
    · simp only [opening?] at ho
      split at ho <;> split at ho <;> cases ho
  | methodEntry =>
    cases ho
    exact hc
  | markerEntry =>
    cases ho
    show s.hasRoot = decide (0 < s.rootDepth)
    rw [Bool.eq_iff_iff, CallStack.hasRoot_iff, decide_eq_true_iff]
    exact ⟨And.right, fun hr => ⟨hs.root hr, hr⟩⟩
  | _ => cases ho

theorem invokes_prepare (hs : s.Sane) (ho : h.opening? s = some o) :
    h.invokes (o.prepare s) = h.invokes s := by
  cases h with
  | methodEntry =>
    cases ho
    rfl
  | markerEntry =>
    cases ho
    rw [invokes, invokes, Bool.eq_iff_iff, CallStack.hasRoot_iff, CallStack.hasRoot_iff]
    exact ⟨fun hr => ⟨hs.root hr.2, hr.2⟩, fun hr => ⟨rfl, hr.2⟩⟩
  | _ => rfl

theorem invokes_of_isExit (he : h.isExit = true) (s : CallStack) : h.invokes s = false := by
  cases h <;> first | rfl | cases he

theorem invokes_of_not_counts (hsane : s.Sane) (hc : h.concerns s = true)
    (hcounts : ∀ o, h.opening? s = some o → Call.counts o s = false) : h.invokes s = false := by
  rcases isExit_or_opening? hsane hc with ⟨he, -⟩ | ⟨o, ho⟩
  · exact invokes_of_isExit he s
  · rw [invokes_eq_counts hsane hc ho, hcounts o ho]

end Hook

/-! ### What a step of a call notes -/

namespace Call
variable {c : Call} {who : OsThread} {l l' : Local} {stage stage' : Stage} {slot : Slot}
  {t t' : Tracer} {s s' : CallStack} {epoch : UInt64} {fresh : Bool} {o : Opening}

/-- The method of the frame that a step of a call opens as a root or below an active root: all that
the call has to do then is to drop its guard, and its stack is one deeper. -/
def opened? (c : Call) (t t' : Tracer) : Stage → Option MethodId
  | .closing slot =>
    match t.roster.stack? slot, t'.roster.stack? slot with
    | some s, some s' =>
      if c.hook.invokes s && s'.depth == CallStack.above s.depth then some c.method else none
    | _, _ => none
  | _ => none

theorem opened?_closing (hs : t.roster.stack? slot = some s) (hs' : t'.roster.stack? slot = some s') :
    c.opened? t t' (.closing slot) =
      if c.hook.invokes s && s'.depth == CallStack.above s.depth then some c.method else none := by
  simp only [opened?, hs, hs']

theorem frame_invoked (t : Tracer) (epoch : UInt64) (slot : Slot) (s : CallStack) (d : UInt32)
    (k : Kind) (m : MethodId) (ret : Option ReturnValue) :
    (t.frame epoch slot s d k m ret).invoked = t.invoked := by
  unfold Tracer.frame
  dsimp only
  split <;> rfl

@[simp] theorem enter_invoked (c : Call) (t : Tracer) (epoch : UInt64) (slot : Slot) (o : Opening) :
    (c.enter t epoch slot o).invoked = t.invoked := by
  rcases hs : t.roster.stack? slot with _ | s
  · simp only [enter, hs]
  · rw [enter_eq hs]
    exact frame_invoked ..

@[simp] theorem exit_invoked (c : Call) (t : Tracer) (epoch : UInt64) (slot : Slot) :
    (c.exit t epoch slot).invoked = t.invoked := by
  rcases hs : t.roster.stack? slot with _ | s
  · simp only [exit, hs]
  · rw [exit_eq hs]
    exact frame_invoked ..

theorem greet_same (c : Call) (t : Tracer) (epoch : UInt64) (s : CallStack) (fresh : Bool) :
    (c.greet t epoch s fresh).invoked = t.invoked ∧
      (c.greet t epoch s fresh).expands c.method = t.expands c.method := by
  unfold greet
  split
  · split <;> exact ⟨rfl, rfl⟩
  · exact ⟨rfl, rfl⟩

/-- A call that acts marks its method if its invocation counts, and pauses if it is the first. -/
theorem act_invoked (c : Call) (epoch : UInt64) (fresh : Bool) (h : t.roster.stack? slot = some s) :
    (∃ o, c.hook.opening? s = some o ∧ counts o s = true ∧
      (c.act t epoch slot fresh).1.invoked = t.invoked.insert c.method ∧
      (c.act t epoch slot fresh).2 =
        if t.expands c.method then .expanding epoch slot o else .closing slot) ∨
    (∀ o, c.hook.opening? s = some o → counts o s = false) ∧
      (c.act t epoch slot fresh).1.invoked = t.invoked ∧
      (c.act t epoch slot fresh).2 = .closing slot := by
  obtain ⟨hinvoked, hexpands⟩ := c.greet_same t epoch s fresh
  rw [act_eq h]
  rcases ho : c.hook.opening? s with _ | o
  · refine .inr ⟨nofun, ?_, rfl⟩
    dsimp only
    split
    · exact c.exit_invoked t epoch slot
    · exact hinvoked
  · dsimp only
    cases hcounts : counts o s with
    | false =>
      refine .inr ⟨?_, (c.enter_invoked ..).trans hinvoked, rfl⟩
      rintro _ ⟨⟩
      exact hcounts
    | true =>
      refine .inl ⟨o, rfl, hcounts, ?_⟩
      rw [← hinvoked, ← hexpands]
      generalize c.greet t epoch s fresh = t'
      have hprepared : (t'.modifyStack slot fun _ => o.prepare s).expands c.method =
          t'.expands c.method := rfl
      simp only [↓reduceIte, invoke, hprepared]
      cases t'.expands c.method with
      | true => exact ⟨rfl, rfl⟩
      | false => exact ⟨c.enter_invoked .., rfl⟩

/-- What a step of a call notes of its method: that the frame has been opened is known of later, or
at once, or has been announced before. -/
inductive Noted (c : Call) (t t' : Tracer) (stage stage' : Stage) : Option MethodId → Prop
  | nothing (ht : stage.tells = false) (ht' : stage'.tells = false) (h : t'.invoked = t.invoked) :
    Noted c t t' stage stage' none
  | telling (ht : stage.tells = false) (ht' : stage'.tells = true)
    (hexpands : t.expands c.method = true) (h : t'.invoked = t.invoked.insert c.method) :
    Noted c t t' stage stage' none
  | opening (ht : stage.tells = false) (ht' : stage'.tells = false)
    (hexpands : t.expands c.method = false) (h : t'.invoked = t.invoked.insert c.method) :
    Noted c t t' stage stage' (some c.method)
  | told (ht : stage.tells = true) (ht' : stage'.tells = false) (h : t'.invoked = t.invoked) :
    Noted c t t' stage stage' (some c.method)

theorem act_noted (hs : t.roster.stack? slot = some s) (hsane : s.Sane)
    (hc : c.hook.concerns s = true) : let x := c.act t epoch slot fresh
    c.Noted t x.1 (.guarding epoch slot fresh) x.2 (c.opened? t x.1 x.2) := by
  intro x
  rcases c.act_invoked epoch fresh hs with
    ⟨o, ho, hcounts, hinvoked, hstage⟩ | ⟨hcounts, hinvoked, hstage⟩
  · cases hexpands : t.expands c.method with
    | true =>
      rw [hexpands, if_pos rfl] at hstage
      have hopened : c.opened? t x.1 x.2 = none := by rw [hstage]; rfl
      rw [hopened]
      refine .telling rfl ?_ hexpands hinvoked
      rw [hstage]
      rfl
    | false =>
      rw [hexpands, if_neg Bool.false_ne_true] at hstage
      rcases c.act_cases epoch fresh hs with ⟨-, hstack, -⟩ | ⟨o', hstage', -⟩
      · have hopened : c.opened? t x.1 x.2 = some c.method := by
          rw [hstage, opened?_closing hs hstack, Hook.invokes_eq_counts hsane hc ho, hcounts]
          simp only [deed, ho, Opening.push_depth, Opening.prepare_depth, BEq.rfl, Bool.and_self,
            ↓reduceIte]
        rw [hopened]
        refine .opening rfl ?_ hexpands hinvoked
        rw [hstage]
        rfl
      · rw [hstage] at hstage'
        cases hstage'
  · have hinvokes := Hook.invokes_of_not_counts hsane hc hcounts
    have hopened : c.opened? t x.1 x.2 = none := by
      rcases c.act_cases epoch fresh hs with ⟨-, hstack, -⟩ | ⟨o', hstage', -⟩
      · rw [hstage, opened?_closing hs hstack, hinvokes]
        rfl
      · rw [hstage] at hstage'
        cases hstage'
    rw [hopened]
    refine .nothing rfl ?_ hinvoked
    rw [hstage]
    rfl

/-- A call that has its guard finds its stack as it expects it. -/
theorem Goes.noted (h : c.Goes who l stage l' stage')
    (hstack : stage.guards = true → ∀ slot, stage.slot? = some slot →
      ∃ s, l.tracer.roster.stack? slot = some s ∧ c.Expects s stage ∧
        (stage.tells = false → s.Sane)) :
    c.Noted l.tracer l'.tracer stage stage' (c.opened? l.tracer l'.tracer stage') := by
  cases h with
  | @act t memory epoch slot fresh =>
    obtain ⟨s, hs, hc, hsane⟩ := hstack rfl slot rfl
    exact act_noted hs (hsane rfl) hc
  | @tell t memory epoch slot o =>
    obtain ⟨s, hs, ⟨s₀, hsane, hc, ho, hcounts, rfl⟩, -⟩ := hstack rfl slot rfl
    have hopened : c.opened? t (c.enter t epoch slot o) (.closing slot) = some c.method := by
      rw [opened?_closing hs (enter_stack hs), Hook.invokes_prepare hsane ho,
        Hook.invokes_eq_counts hsane hc ho, hcounts, Opening.push_depth, BEq.rfl, Bool.and_self,
        if_pos rfl]
    exact hopened ▸ .told rfl rfl (c.enter_invoked ..)
  | _ => exact .nothing rfl rfl rfl

end Call

/-! ### What a move notes -/

namespace Machine

/-- The method of which a move begins to tell. -/
def telling? (m : Machine) (x : Move) : Option MethodId :=
  match m.outcome x with
  | .telling k => some k
  | _ => none

/-- The method of the frame that a move opens as a root or below an active root. -/
def opened? (m : Machine) : Move → Option MethodId
  | .advance who =>
    match m.active who.id with
    | [] => none
    | a :: _ =>
      let (l, stage) := a.call.advance who ⟨m.tracer, m.memory who.id⟩ a.stage
      a.call.opened? m.tracer l.tracer stage
  | _ => none

/-- Whether a method is being told of. -/
def Tells (m : Machine) (k : MethodId) : Prop :=
  ∃ i, ∃ a ∈ m.active i, a.stage.tells = true ∧ a.call.method = k

/-- What a move that does not reset all notes. -/
inductive Noted (m m' : Machine) : Option MethodId → Option MethodId → Prop
  | nothing (h : m'.tracer.invoked = m.tracer.invoked) (ht : ∀ j, m'.Tells j ↔ m.Tells j) :
    Noted m m' none none
  | telling {k : MethodId} (hexpands : m.tracer.expands k = true)
    (h : m'.tracer.invoked = m.tracer.invoked.insert k)
    (ht : ∀ j, m'.Tells j ↔ m.Tells j ∨ j = k) : Noted m m' (some k) none
  | opening {k : MethodId} (hexpands : m.tracer.expands k = false)
    (h : m'.tracer.invoked = m.tracer.invoked.insert k) (ht : ∀ j, m'.Tells j ↔ m.Tells j) :
    Noted m m' none (some k)
  | told {k : MethodId} (h : m'.tracer.invoked = m.tracer.invoked)
    (ht : ∀ j, m.Tells j ↔ m'.Tells j ∨ j = k) : Noted m m' none (some k)

variable {m : Machine} {i : Nat} {a : Activity} {rest : List Activity} {l : Local} {stage : Stage}
  {k : MethodId}

/-- What the other calls in progress tell of, beside the innermost of a thread. -/
def OthersTell (m : Machine) (i : Nat) (rest : List Activity) (k : MethodId) : Prop :=
  (∃ b ∈ rest, b.stage.tells = true ∧ b.call.method = k) ∨
    ∃ j, j ≠ i ∧ ∃ b ∈ m.active j, b.stage.tells = true ∧ b.call.method = k

theorem tells_of_active (hact : m.active i = a :: rest) :
    m.Tells k ↔ (a.stage.tells = true ∧ a.call.method = k) ∨ m.OthersTell i rest k := by
  constructor
  · rintro ⟨j, b, hb, hk⟩
    by_cases hj : j = i
    · rw [hj, hact] at hb
      rcases List.mem_cons.mp hb with rfl | hb
      · exact .inl hk
      · exact .inr (.inl ⟨b, hb, hk⟩)
    · exact .inr (.inr ⟨j, hj, b, hb, hk⟩)
  · rintro (hk | ⟨b, hb, hk⟩ | ⟨j, -, b, hb, hk⟩)
    · exact ⟨i, a, by rw [hact]; exact List.mem_cons_self, hk⟩
    · exact ⟨i, b, by rw [hact]; exact List.mem_cons_of_mem a hb, hk⟩
    · exact ⟨j, b, hb, hk⟩

theorem tells_put (m : Machine) (i : Nat) (l : Local) (rest : List Activity) (c : Call) (counted : Bool)
    (stage₀ stage : Stage) (k : MethodId) :
    (m.put i l ((⟨c, counted, stage₀⟩ : Activity).next stage ++ rest)).Tells k ↔
      (stage.tells = true ∧ c.method = k) ∨ m.OthersTell i rest k := by
  constructor
  · rintro ⟨j, b, hb, hk⟩
    rcases mem_put hb with ⟨-, hb⟩ | ⟨hj, hb⟩
    · rcases List.mem_append.mp hb with hb | hb
      · obtain ⟨rfl, -⟩ := Activity.eq_of_mem_next hb
        exact .inl hk
      · exact .inr (.inl ⟨b, hb, hk⟩)
    · exact .inr (.inr ⟨j, hj, b, hb, hk⟩)
  · have hself : (m.put i l ((⟨c, counted, stage₀⟩ : Activity).next stage ++ rest)).active i =
        (⟨c, counted, stage₀⟩ : Activity).next stage ++ rest := Function.update_self ..
    rintro (hk | ⟨b, hb, hk⟩ | ⟨j, hj, b, hb, hk⟩)
    · have hover : stage.isOver = false := Stage.isOver_of_guards (Stage.guards_of_tells hk.1)
      exact ⟨i, _, m.mem_active_put i l ⟨c, counted, stage₀⟩ hover rest, hk⟩
    · refine ⟨i, b, ?_, hk⟩
      rw [hself]
      exact List.mem_append_right _ hb
    · refine ⟨j, b, ?_, hk⟩
      show b ∈ Function.update m.active i _ j
      rwa [Function.update_of_ne hj]

theorem settle_invoked (a : Activity) (t : Tracer) (stage : Stage) :
    (a.settle t stage).invoked = t.invoked := by
  rw [Activity.settle_eq]

theorem noted_advance (h : m.Poised) (hacc : m.Accounted) (who : OsThread) :
    m.Noted (m.step (.advance who)) (m.telling? (.advance who)) (m.opened? (.advance who)) := by
  rcases hact : m.active who.id with _ | ⟨⟨c, counted, stage₀⟩, rest⟩
  · have hstep : m.step (.advance who) = m := advance_of_idle hact
    simp only [telling?, outcome, opened?, hact, hstep]
    exact .nothing rfl fun _ => Iff.rfl
  have hgoes : c.Goes who ⟨m.tracer, m.memory who.id⟩ stage₀ _ _ := c.goes_advance _ stage₀
  simp only [telling?, outcome, opened?, hact, step, Machine.advance, proceed]
  generalize hx : c.advance who ⟨m.tracer, m.memory who.id⟩ stage₀ = x at hgoes ⊢
  obtain ⟨l, stage⟩ := x
  have hself : (⟨c, counted, stage₀⟩ : Activity) ∈ m.active who.id := by
    rw [hact]
    exact List.mem_cons_self
  have hnoted := hgoes.noted fun hg slot hslot => by
    obtain ⟨s, hs⟩ := hacc.exists_stack? (i := who.id) (.inr ⟨_, hself, hslot⟩)
    exact ⟨s, hs, h.expects who.id _ hself slot s hslot hs,
      fun ht => h.sane_self hacc hact hslot (.inl hg) ht hs⟩
  have hbefore (j : MethodId) := tells_of_active (m := m) (k := j) hact
  have hafter := m.tells_put who.id ⟨(⟨c, counted, stage₀⟩ : Activity).settle l.tracer stage, l.memory⟩
    rest c counted stage₀ stage
  have hinvoked := settle_invoked ⟨c, counted, stage₀⟩ l.tracer stage
  dsimp only at hnoted hbefore hafter
  have hquiet (ht' : stage.tells = false) : (match stage.outcome c with
      | .telling k => some k
      | _ => none) = none := by
    cases stage <;> first | rfl | cases ht'
  generalize c.opened? m.tracer l.tracer stage = opened at hnoted ⊢
  cases hnoted with
  | nothing ht ht' heq =>
    rw [hquiet ht']
    refine .nothing (hinvoked.trans heq) fun j => ?_
    rw [hbefore, hafter, ht, ht']
  | telling ht ht' hexpands heq =>
    obtain ⟨epoch, slot, o, rfl⟩ : ∃ epoch slot o, stage = .expanding epoch slot o := by
      cases stage <;> first | exact ⟨_, _, _, rfl⟩ | cases ht'
    refine .telling hexpands (hinvoked.trans heq) fun j => ?_
    rw [hbefore, hafter, ht]
    simp [Stage.tells, or_comm, eq_comm]
  | opening ht ht' hexpands heq =>
    rw [hquiet ht']
    refine .opening hexpands (hinvoked.trans heq) fun j => ?_
    rw [hbefore, hafter, ht, ht']
  | told ht ht' heq =>
    rw [hquiet ht']
    refine .told (hinvoked.trans heq) fun j => ?_
    rw [hbefore, hafter, ht, ht']
    simp [or_comm, eq_comm]

/-- If a move resets all, no call is in progress. -/
def ResetsIdle (m : Machine) (x : Move) : Prop := m.resets x = true → ∀ i, m.active i = []

theorem along_resetsIdle {m : Machine} {xs : List Move} (h : ∀ x ∈ xs, x.isReset = false) :
    m.Along ResetsIdle xs := by
  induction xs generalizing m with
  | nil => exact trivial
  | cons x xs ih =>
    obtain ⟨hx, hxs⟩ := List.forall_mem_cons.mp h
    refine ⟨fun hresets => ?_, ih hxs⟩
    cases x <;> first | cases hresets | cases hx

theorem noted_of_resets {x : Move} (hx : m.resets x = true) :
    (m.step x).tracer.invoked = .empty ∧ (m.step x).active = m.active := by
  cases x with
  | reset l =>
    rw [step_reset hx l]
    exact ⟨rfl, rfl⟩
  | _ => cases hx

theorem othersTell_active (m : Machine) (i : Nat) (k : MethodId) :
    m.OthersTell i (m.active i) k ↔ m.Tells k := by
  constructor
  · rintro (⟨b, hb, hk⟩ | ⟨j, -, b, hb, hk⟩)
    · exact ⟨i, b, hb, hk⟩
    · exact ⟨j, b, hb, hk⟩
  · rintro ⟨j, b, hb, hk⟩
    by_cases hj : j = i
    · exact .inl ⟨b, hj ▸ hb, hk⟩
    · exact .inr ⟨j, hj, b, hb, hk⟩

theorem noted_call (m : Machine) (who : OsThread) (c : Call) (counted : Bool) :
    m.Noted (m.step (.call who c counted)) (m.telling? (.call who c counted)) none := by
  by_cases hr : m.ready who.id = true
  · obtain ⟨l, stage, hgoes, hstep, houtcome⟩ := call_outcome c counted hr
    have hcalled : l.tracer = m.tracer ∧ stage.tells = false ∧
        (match stage.outcome c with
          | .telling k => some k
          | _ => none) = none := by
      cases hgoes <;> exact ⟨rfl, rfl, rfl⟩
    obtain ⟨htracer, ht, htelling⟩ := hcalled
    rw [telling?, houtcome, htelling, hstep]
    refine .nothing ((settle_invoked ..).trans (congrArg Tracer.invoked htracer)) fun j => ?_
    rw [tells_put, ht, ← othersTell_active m who.id, OthersTell, OthersTell, note_active]
    simp
  · have hstep : m.step (.call who c counted) = m := by rw [step, Machine.call, if_neg hr]
    have hnone : m.telling? (.call who c counted) = none := by
      simp only [telling?, outcome, hr, Bool.false_eq_true, ↓reduceIte]
    rw [hstep, hnone]
    exact .nothing rfl fun _ => Iff.rfl

theorem noted (h : m.Poised) (hacc : m.Accounted) (x : Move) (hx : m.resets x = false) :
    m.Noted (m.step x) (m.telling? x) (m.opened? x) := by
  cases x with
  | call who c counted => exact m.noted_call who c counted
  | advance who => exact noted_advance h hacc who
  | suspend =>
    refine .nothing ?_ fun _ => ?_ <;> rw [step] <;> rcases m.suspend_cases with heq | ⟨-, heq⟩ <;>
      rw [heq]
    exact Iff.rfl
  | resume =>
    refine .nothing ?_ fun _ => ?_ <;> rw [step] <;> rcases m.resume_cases with heq | ⟨-, heq⟩ <;>
      rw [heq]
    exact Iff.rfl
  | reset l =>
    have herror : m.tracer.reset l = .error .notSuspended := by
      rw [Tracer.reset, if_neg (by simpa [resets] using hx)]
    have hstep : m.step (.reset l) = m := by simp only [step, reset, herror]
    rw [hstep]
    exact .nothing rfl fun _ => Iff.rfl
  | elsewhere i r =>
    have hsame : (m.step (.elsewhere i r)).tracer = m.tracer ∧
        (m.step (.elsewhere i r)).active = m.active := by
      rw [step]
      split <;> exact ⟨rfl, rfl⟩
    refine .nothing (congrArg Tracer.invoked hsame.1) fun j => ?_
    rw [Tells, Tells, hsame.2]
  | _ => exact .nothing rfl fun _ => Iff.rfl

end Machine

/-! ### Since the last reset -/

/-- A machine, and what has been noted since the last reset: of which methods it has been told, and of
which methods frames have been opened as roots or below active roots. -/
structure Invocations where
  machine : Machine
  told : List MethodId
  opened : List MethodId

namespace Invocations

def new (m : Machine) : Invocations := ⟨m, [], []⟩

def step (n : Invocations) (x : Move) : Invocations :=
  if n.machine.resets x then new (n.machine.step x)
  else
    { machine := n.machine.step x
      told := n.told ++ (n.machine.telling? x).toList
      opened := n.opened ++ (n.machine.opened? x).toList }

def run (n : Invocations) (xs : List Move) : Invocations := xs.foldl step n

variable {n : Invocations}

@[simp] theorem step_machine (n : Invocations) (x : Move) :
    (n.step x).machine = n.machine.step x := by
  unfold step
  split <;> rfl

@[simp] theorem run_machine (n : Invocations) (xs : List Move) :
    (n.run xs).machine = n.machine.run xs := by
  induction xs generalizing n with
  | nil => rfl
  | cons x xs ih => rw [run, List.foldl_cons, ← run, ih, step_machine, Machine.run_cons]

theorem step_of_resets {x : Move} (hx : n.machine.resets x = true) :
    n.step x = new (n.machine.step x) := if_pos hx

theorem step_of_not_resets {x : Move} (hx : n.machine.resets x = false) : n.step x =
    ⟨n.machine.step x, n.told ++ (n.machine.telling? x).toList,
      n.opened ++ (n.machine.opened? x).toList⟩ := by
  rw [step, hx, if_neg Bool.false_ne_true]

/-- What is known of the calls in progress, however often all has been reset. -/
structure Sound (st : Settings) (hasHandler : Bool) (n : Invocations) : Prop where
  reckoned : n.machine.Reckoned st hasHandler
  poised : n.machine.Poised

/-- Who listens is told of every method that is known to be invoked, and of each once. -/
structure Heard (n : Invocations) : Prop where
  once : n.told.Nodup
  mem : ∀ k, n.machine.tracer.invoked.contains k = true ↔ k ∈ n.told
  size : n.machine.tracer.invoked.size = n.told.length

/-- A method is known to be invoked if a frame has been opened, or if it is being told of. -/
def Kept (n : Invocations) : Prop :=
  ∀ k, n.machine.tracer.invoked.contains k = true ↔ k ∈ n.opened ∨ n.machine.Tells k

section step
variable {st : Settings} {hasHandler : Bool} {x : Move}

theorem Sound.new (id : Nat) (st : Settings) (hasHandler : Bool) :
    (Invocations.new (.new (.new id st hasHandler))).Sound st hasHandler :=
  ⟨.new id st hasHandler, .new id st hasHandler⟩

theorem Sound.step (h : n.Sound st hasHandler) (x : Move) : (n.step x).Sound st hasHandler := by
  refine ⟨?_, ?_⟩ <;> rw [step_machine]
  · exact h.reckoned.step x
  · exact h.poised.step h.reckoned.accounted h.reckoned.made.steady.going x

theorem Sound.noted (h : n.Sound st hasHandler) (hx : n.machine.resets x = false) :
    n.machine.Noted (n.machine.step x) (n.machine.telling? x) (n.machine.opened? x) :=
  Machine.noted h.poised h.reckoned.accounted x hx

theorem Sound.expands (h : n.Sound st hasHandler) (k : MethodId) :
    n.machine.tracer.expands k =
      (!n.machine.tracer.invoked.contains k && st.expandOnFirstInvoke && hasHandler) := by
  rw [Tracer.expands, h.reckoned.made.expandOnFirstInvoke, h.reckoned.made.hasHandler]

theorem Heard.of_empty {m : Machine} (h : m.tracer.invoked = .empty) : (Invocations.new m).Heard where
  once := List.nodup_nil
  mem k := by simp [Invocations.new, h, MethodSet.contains_empty]
  size := by simp [Invocations.new, h, MethodSet.size_empty]

theorem Heard.step (h : n.Heard) (hn : n.Sound st hasHandler)
    (hon : st.expandOnFirstInvoke = true ∧ hasHandler = true) (x : Move) : (n.step x).Heard := by
  cases hx : n.machine.resets x with
  | true =>
    rw [step_of_resets hx]
    exact .of_empty (Machine.noted_of_resets hx).1
  | false =>
    rw [step_of_not_resets hx]
    have hexpands (k : MethodId) :
        n.machine.tracer.expands k = !n.machine.tracer.invoked.contains k := by
      rw [hn.expands, hon.1, hon.2, Bool.and_true, Bool.and_true]
    have hnoted := hn.noted hx
    generalize n.machine.telling? x = told, n.machine.opened? x = opened at hnoted ⊢
    cases hnoted with
    | nothing heq | told heq =>
      refine ⟨?_, fun k => ?_, ?_⟩ <;> simp only [Option.toList_none, List.append_nil, heq]
      · exact h.once
      · exact h.mem k
      · exact h.size
    | @telling k hk heq =>
      rw [hexpands, Bool.not_eq_true'] at hk
      have hnew : k ∉ n.told := fun hmem => by
        rw [(h.mem k).mpr hmem] at hk
        cases hk
      refine ⟨?_, fun j => ?_, ?_⟩ <;> simp only [Option.toList_some, heq]
      · exact List.nodup_append.mpr ⟨h.once, List.nodup_singleton k, fun j hj _ hk' heq' =>
          hnew (List.mem_singleton.mp hk' ▸ heq' ▸ hj)⟩
      · rw [MethodSet.contains_insert_iff, h.mem, List.mem_append, List.mem_singleton]
      · rw [MethodSet.size_insert_of_not_contains hk, h.size, List.length_append,
          List.length_singleton]
    | @opening k hk heq =>
      -- who listens has been told before
      rw [hexpands, Bool.not_eq_false'] at hk
      rw [MethodSet.insert_of_contains hk] at heq
      refine ⟨?_, fun k => ?_, ?_⟩ <;> simp only [Option.toList_none, List.append_nil, heq]
      · exact h.once
      · exact h.mem k
      · exact h.size

/-- Without a listener nobody is told of anything. -/
theorem told_step (h : n.told = []) (hn : n.Sound st hasHandler)
    (hoff : ¬(st.expandOnFirstInvoke = true ∧ hasHandler = true)) (x : Move) : (n.step x).told = [] := by
  cases hx : n.machine.resets x with
  | true =>
    rw [step_of_resets hx]
    rfl
  | false =>
    rw [step_of_not_resets hx]
    have hnoted := hn.noted hx
    generalize n.machine.telling? x = told, n.machine.opened? x = opened at hnoted ⊢
    cases hnoted with
    | @telling k hk =>
      rw [hn.expands, Bool.and_eq_true, Bool.and_eq_true] at hk
      exact absurd ⟨hk.1.2, hk.2⟩ hoff
    | _ => rw [Option.toList_none, List.append_nil, h]

theorem Kept.of_idle {m : Machine} (h : m.tracer.invoked = .empty) (hidle : ∀ i, m.active i = []) :
    (Invocations.new m).Kept := by
  intro k
  have htells : ¬m.Tells k := by
    rintro ⟨i, a, ha, -⟩
    rw [hidle] at ha
    cases ha
  simp [Invocations.new, h, MethodSet.contains_empty, htells]

/-- All may be reset while no call is in progress. -/
theorem Kept.step (h : n.Kept) (hn : n.Sound st hasHandler)
    (hidle : n.machine.ResetsIdle x) : (n.step x).Kept := by
  cases hx : n.machine.resets x with
  | true =>
    rw [step_of_resets hx]
    obtain ⟨hinvoked, hactive⟩ := Machine.noted_of_resets hx
    exact .of_idle hinvoked (hactive ▸ hidle hx)
  | false =>
    rw [step_of_not_resets hx]
    have hnoted := hn.noted hx
    intro j
    have hj := h j
    dsimp only at hj ⊢
    generalize n.machine.telling? x = told, n.machine.opened? x = opened at hnoted ⊢
    cases hnoted with
    | nothing heq ht =>
      rw [heq, ht, hj, Option.toList_none, List.append_nil]
    | @telling k hk heq ht =>
      rw [heq, ht, MethodSet.contains_insert_iff, hj, Option.toList_none, List.append_nil, or_assoc]
    | @opening k hk heq ht =>
      rw [heq, ht, MethodSet.contains_insert_iff, hj, Option.toList_some, List.mem_append,
        List.mem_singleton, or_right_comm]
    | @told k heq ht =>
      rw [heq, hj, ht, Option.toList_some, List.mem_append, List.mem_singleton, or_assoc,
        or_comm (a := j = k)]

theorem Sound.run (h : n.Sound st hasHandler) (xs : List Move) : (n.run xs).Sound st hasHandler := by
  induction xs generalizing n with
  | nil => exact h
  | cons x xs ih => exact ih (h.step x)

theorem Heard.run (h : n.Heard) (hn : n.Sound st hasHandler)
    (hon : st.expandOnFirstInvoke = true ∧ hasHandler = true) (xs : List Move) : (n.run xs).Heard := by
  induction xs generalizing n with
  | nil => exact h
  | cons x xs ih => exact ih (h.step hn hon x) (hn.step x)

theorem told_run (h : n.told = []) (hn : n.Sound st hasHandler)
    (hoff : ¬(st.expandOnFirstInvoke = true ∧ hasHandler = true)) (xs : List Move) :
    (n.run xs).told = [] := by
  induction xs generalizing n with
  | nil => exact h
  | cons x xs ih => exact ih (told_step h hn hoff x) (hn.step x)

theorem Kept.run (h : n.Kept) (hn : n.Sound st hasHandler) {xs : List Move}
    (hidle : n.machine.Along Machine.ResetsIdle xs) : (n.run xs).Kept := by
  induction xs generalizing n with
  | nil => exact h
  | cons x xs ih =>
    obtain ⟨hx, hxs⟩ := hidle
    rw [← step_machine] at hxs
    exact ih (h.step hn hx) (hn.step x) hxs

/-- While no call is in progress, the methods that are known to be invoked are those of the frames
that have been opened. -/
theorem Kept.contains_iff (h : n.Kept) (hidle : ∀ i, n.machine.active i = []) (k : MethodId) :
    n.machine.tracer.invoked.contains k = true ↔ k ∈ n.opened := by
  rw [h k]
  refine or_iff_left ?_
  rintro ⟨i, a, ha, -⟩
  rw [hidle] at ha
  cases ha

end step

end Invocations

end MethodTrace
