import MethodTrace.Proofs.Invocations
import MethodTrace.Proofs.Refusals

/-!
# Which methods are invoked

The methods that a tracer knows to be invoked are those that its threads have marked, and what a
thread marks is told by its own calls: the methods whose frames its entries open as roots or below
active roots (`Scribe.opens`). A call marks its method as it acts, so the calls of a thread count
from then on (`View.acted`). Of nested calls that are heard it is told by recursion on the tree, with
no stack (`CallTree.marks`).
-/

namespace MethodTrace

theorem Call.effect_name (c : Call) (w : Scribe) (s : CallStack) :
    (c.effect w s).1.name = s.name := by
  unfold effect
  split
  · exact c.deed_name w s
  · rfl

namespace Scribe

/-- The methods whose frames are opened as roots or below active roots by calls one after the other. -/
def opens (w : Scribe) : List Call → CallStack → List MethodId
  | [], _ => []
  | c :: cs, s => (if c.hook.invokes s then [c.method] else []) ++ w.opens cs (c.effect w s).1

theorem opens_append (w : Scribe) (cs ds : List Call) (s : CallStack) :
    w.opens (cs ++ ds) s = w.opens cs s ++ w.opens ds (w.follow cs s).1 := by
  induction cs generalizing s with
  | nil => rfl
  | cons c cs ih => simp only [List.cons_append, opens, follow, ih, List.append_assoc]

theorem opens_concat (w : Scribe) (cs : List Call) (c : Call) (s : CallStack) :
    w.opens (cs ++ [c]) s =
      w.opens cs s ++ if c.hook.invokes (w.follow cs s).1 then [c.method] else [] := by
  rw [opens_append, opens, opens, List.append_nil]

/-- Only an entry that registers its thread opens a frame first. -/
theorem opens_new (w : Scribe) {cs : List Call} (h : ∀ c ∈ cs, c.hook.enrolls = false)
    (no : ThreadNo) (name : Option String) : w.opens cs (.new no name) = [] := by
  induction cs with
  | nil => rfl
  | cons c cs ih =>
    obtain ⟨hc, hcs⟩ := List.forall_mem_cons.mp h
    have hinvokes : c.hook.invokes (.new no name) = false := by
      cases hh : c.hook <;> first | rfl | (rw [hh] at hc; cases hc)
    have hsingle : ∀ c' ∈ [c], c'.hook.enrolls = false :=
      fun c' hc' => List.mem_singleton.mp hc' ▸ hc
    have hstays := w.follow_new hsingle no name
    have heffect : (c.effect w (.new no name)).1 = .new no name := congrArg Prod.fst hstays
    rw [opens, hinvokes, heffect, ih hcs]
    rfl

theorem follow_name (w : Scribe) (cs : List Call) (s : CallStack) :
    (w.follow cs s).1.name = s.name := by
  induction cs generalizing s with
  | nil => rfl
  | cons c cs ih => exact (ih _).trans (c.effect_name w s)

end Scribe

theorem Hook.invokes_of_concerns {h : Hook} {s : CallStack} (hc : h.concerns s = false) :
    h.invokes s = false := by
  cases h <;> first | rfl | exact hc | cases hc

theorem Family.entry_invokes (f : Family) (s : CallStack) :
    f.entry.invokes s = f.below s.hasRoot := by
  cases f with
  | root => exact (Bool.or_true _).symm
  | method | marker => exact (Bool.or_false _).symm

/-! ### Nested calls -/

namespace CallTree

mutual

/-- The methods that calls mark all of whose hooks are heard. -/
def marks (root : Bool) : CallTree → List MethodId
  | node f m _ children =>
    (if f.below root then [m] else []) ++ marksOf (f.below root) children

def marksOf (root : Bool) : List CallTree → List MethodId
  | [] => []
  | t :: ts => marks root t ++ marksOf root ts

end

theorem mem_marksOf_replicate {root : Bool} {n : Nat} {t : CallTree} {k : MethodId} :
    k ∈ marksOf root (List.replicate n t) ↔ n ≠ 0 ∧ k ∈ marks root t := by
  induction n with
  | zero => exact ⟨fun hk => (List.not_mem_nil hk).elim, fun hk => absurd rfl hk.1⟩
  | succ n ih =>
    rw [List.replicate_succ, marksOf, List.mem_append, ih]
    exact ⟨fun hk => ⟨Nat.succ_ne_zero n, hk.elim id And.right⟩, fun hk => .inl hk.2⟩

/-- Nested calls leave the stack as it was. -/
theorem follow_calls {s : CallStack} (hs : s.Level) (w : Scribe) {t : CallTree}
    (hd : s.depth.toNat + t.height < UInt32.size) : (w.follow t.calls s).1 = s := by
  have hheight : s.depth.toNat + heightOf (t.placed false).running < UInt32.size := by
    rw [running_placed_false, heightOf, heightOf, Nat.max_zero]
    exact hd
  have hfollow := PlacedCall.follow_hooks hs w (t.placed false) (whole_placed ..) hheight
  rw [hooks_placed, heard_map] at hfollow
  exact congrArg Prod.fst hfollow

mutual

theorem opens_calls {s : CallStack} (hs : s.Level) (w : Scribe) : (t : CallTree) →
    s.depth.toNat + t.height < UInt32.size → w.opens t.calls s = t.marks s.hasRoot
  | node f m ret children, hd => by
    rw [height] at hd
    have hexit (s' : CallStack) : f.exit.invokes s' = false :=
      Hook.invokes_of_isExit (by cases f <;> rfl) s'
    have hchildren : w.opens (children.flatMap calls) ((⟨f.entry, m, none⟩ : Call).effect w s).1 =
        marksOf (f.below s.hasRoot) children := by
      rcases hk : f.kinds s.hasRoot with _ | ⟨k, k'⟩
      · rw [Call.effect_of_concerns_eq_false (f.entry_concerns_of_kinds_eq_none hk),
          f.below_of_kinds_eq_none hk]
        exact opens_flatMap hs w children (by omega)
      · have hd1 : s.depth.toNat + 1 < UInt32.size := by omega
        have hdepth : (s.inside f).depth.toNat = s.depth.toNat + 1 := CallStack.toNat_above hd1
        rw [hs.entry hd1 hk, ← hs.hasRoot_inside]
        exact opens_flatMap (hs.inside hd1 f) w children (by omega)
    rw [calls_node, Scribe.opens, Scribe.opens_concat, hexit, hchildren, f.entry_invokes, marks]
    exact congrArg _ (List.append_nil _)

theorem opens_flatMap {s : CallStack} (hs : s.Level) (w : Scribe) : (ts : List CallTree) →
    s.depth.toNat + heightOf ts < UInt32.size → w.opens (ts.flatMap calls) s = marksOf s.hasRoot ts
  | [], _ => rfl
  | t :: ts, hd => by
    rw [heightOf] at hd
    rw [List.flatMap_cons, Scribe.opens_append, follow_calls hs w (by omega),
      opens_calls hs w t (by omega), opens_flatMap hs w ts (by omega), marksOf]

end

end CallTree

/-! ### What a thread marks -/

namespace View

/-- The calls of a thread that have acted or begun to. -/
def acted (v : View) : List Call :=
  if v.footing.isPending then (heard v.journal).dropLast else heard v.journal

/-- The methods that a thread has marked. -/
def marks (w : ThreadNo → Scribe) (v : View) : List MethodId :=
  match v.stack with
  | none => []
  | some s => (w s.no).opens v.acted (.new s.no s.name)

/-- What a thread marks with a step by which a call that concerns its stack is pending no more. -/
def marking (v v' : View) : List MethodId :=
  match v.stack, v.footing with
  | some s, .pending c _ true =>
    if !v'.footing.isPending && c.hook.invokes s then [c.method] else []
  | _, _ => []

variable {w : ThreadNo → Scribe} {lossless : Prop} {v v' : View}

theorem acted_of_pending (h : v.footing.isPending = true) :
    v.acted = (heard v.journal).dropLast := if_pos h

theorem acted_of_not_pending (h : v.footing.isPending = false) : v.acted = heard v.journal :=
  if_neg (by rw [h]; exact Bool.false_ne_true)

theorem marking_of_pending (h : v.footing.isPending = true → v'.footing.isPending = true) :
    v.marking v' = [] := by
  unfold marking
  split
  · rename_i hf
    rw [h (by rw [hf]; rfl)]
    rfl
  · rfl

theorem marking_of_not_pending (h : v.footing.isPending = false) : v.marking v' = [] :=
  marking_of_pending fun hp => by rw [h] at hp; cases hp

/-- One more call has acted or begun to. -/
theorem marks_concat {done : List Call} {no : ThreadNo} {name : Option String} {c : Call}
    {fresh cleared : Bool} {s s' : CallStack} {footing : Footing} {rs rs' : List Record}
    {js : List (Bool × Call)} (hs : ((w no).follow done (.new no name)).1 = s)
    (hjs : heard js = done ++ [c]) (hno : s'.no = s.no) (hname : s'.name = s.name)
    (hf : footing.isPending = false) :
    marks w ⟨some s', footing, rs', js⟩ =
      marks w ⟨some s, .pending c fresh cleared, rs, js⟩ ++
        if c.hook.invokes s then [c.method] else [] := by
  have hno₀ : s.no = no := by rw [← hs, Scribe.follow_no]; rfl
  have hname₀ : s.name = name := by rw [← hs, Scribe.follow_name]; rfl
  have hbefore : acted ⟨some s, .pending c fresh cleared, rs, js⟩ = done := by
    rw [acted_of_pending rfl, hjs, List.dropLast_concat]
  have hafter : acted ⟨some s', footing, rs', js⟩ = done ++ [c] := by
    rw [acted_of_not_pending hf, hjs]
  simp only [marks, hbefore, hafter, hno, hname, hno₀, hname₀, Scribe.opens_concat, hs]

theorem Goes.marks (h : Goes w lossless True v v') (ht : Told w lossless True v) :
    v'.marks w = v.marks w ++ v.marking v' := by
  cases h with
  | stay => rw [marking_of_pending id, List.append_nil]
  | miss stack rs js c =>
    rw [marking_of_not_pending rfl, List.append_nil]
    simp only [View.marks, acted, heard_concat, ↓reduceIte, List.append_nil]
  | start stack rs js c =>
    rw [marking_of_not_pending rfl, List.append_nil]
    simp [View.marks, acted, Footing.isPending, heard_concat]
  | giveUp _ _ _ h => exact absurd trivial h
  | register no name rs js hc =>
    cases ht with
    | stranger hdone hf hjs =>
      simp only [View.marks, marking, acted, Footing.isPending, hjs trivial, Footing.calls,
        List.dropLast_concat, ↓reduceIte, List.append_nil]
      exact (w no).opens_new hdone no name
  | strange => rfl
  | @skip c fresh s rs js hc =>
    cases ht with
    | fresh no name hdone henrolls => rw [Hook.concerns_of_enrolls henrolls] at hc; cases hc
    | known hs hf ht hrs hjs he =>
      have hconcat : marks w ⟨some s, .idle, rs, js⟩ =
          marks w ⟨some s, .pending c fresh false, rs, js⟩ ++
            if c.hook.invokes s then [c.method] else [] :=
        marks_concat hs (hjs trivial) rfl rfl rfl
      rw [hconcat, Hook.invokes_of_concerns hc]
      rfl
  | clear rs js hc =>
    rw [marking_of_pending fun _ => rfl, List.append_nil]
    rfl
  | act rs js hnew =>
    obtain ⟨done, no, name, hs, -, -, -, hjs, -⟩ := ht.cleared
    exact marks_concat hs (hjs trivial) (Call.deed_no ..) (Call.deed_name ..) rfl
  | pause rs js ho hnew =>
    obtain ⟨done, no, name, hs, -, -, -, hjs, -⟩ := ht.cleared
    exact marks_concat hs (hjs trivial) (Opening.prepare_no ..) (Opening.prepare_name ..) rfl
  | tell rs js hnew =>
    rw [marking_of_not_pending rfl, List.append_nil]
    simp only [View.marks, Opening.push_no, Opening.push_name]
    rfl

end View

/-! ### What a tracer knows to be invoked -/

/-- A call that acts marks its method if its entry says so. -/
theorem Call.act_marks {c : Call} {t : Tracer} {slot : Slot} {s : CallStack}
    (hs : t.roster.stack? slot = some s) (hsane : s.Sane) (hc : c.hook.concerns s = true)
    (epoch : UInt64) (fresh : Bool) (k : MethodId) :
    (c.act t epoch slot fresh).1.invoked.contains k = true ↔
      t.invoked.contains k = true ∨ k ∈ if c.hook.invokes s then [c.method] else [] := by
  rcases c.act_invoked epoch fresh hs with ⟨o, ho, hcounts, hinvoked, -⟩ | ⟨hcounts, hinvoked, -⟩
  · rw [hinvoked, Hook.invokes_eq_counts hsane hc ho, hcounts, if_pos rfl,
      MethodSet.contains_insert_iff, List.mem_singleton]
  · rw [hinvoked, Hook.invokes_of_not_counts hsane hc hcounts,
      if_neg Bool.false_ne_true, or_iff_left List.not_mem_nil]

namespace Machine
variable {m : Machine} {x : Move} {xs : List Move} {i : Nat} {limit : UInt32}

theorem invoked_advance (h : m.Poised) (hacc : m.Accounted) {who : OsThread} {a : Activity}
    (hact : m.active who.id = [a]) (hg : m.stackOf who.id ≠ none → Granted who.id m (.advance who))
    (ho : m.Orderly limit) (k : MethodId) :
    (m.step (.advance who)).tracer.invoked.contains k = true ↔
      m.tracer.invoked.contains k = true ∨
        k ∈ (m.view who.id).marking ((m.step (.advance who)).view who.id) := by
  obtain ⟨l, stage, hgoes, heq, houtcome⟩ := advance_outcome hact
  have hself : a ∈ m.active who.id := by rw [hact]; exact List.mem_cons_self
  have hinvoked : (m.step (.advance who)).tracer.invoked = l.tracer.invoked := by
    rw [heq]
    exact settle_invoked ..
  have hfooting : ((m.step (.advance who)).view who.id).footing = stage.footing a.call := by
    rw [heq, List.append_nil, view_put]
    exact footing_next ..
  have hsame (hl : l.tracer.invoked = m.tracer.invoked)
      (hm : (m.view who.id).marking ((m.step (.advance who)).view who.id) = []) :
      (m.step (.advance who)).tracer.invoked.contains k = true ↔
        m.tracer.invoked.contains k = true ∨
          k ∈ (m.view who.id).marking ((m.step (.advance who)).view who.id) := by
    rw [hinvoked, hl, hm, or_iff_left List.not_mem_nil]
  obtain ⟨c, counted, st⟩ := a
  have hview := view_of_active hact
  have hquiet (hst : ∀ c' fresh, st.footing c ≠ .pending c' fresh true) :
      (m.view who.id).marking ((m.step (.advance who)).view who.id) = [] := by
    rw [View.marking, hview]
    split
    · rename_i hf
      exact absurd hf (hst _ _)
    · rfl
  cases hgoes with
  | @guarded _ epoch slot fresh hguarded =>
    refine hsame rfl ?_
    rcases hstack : m.stackOf who.id with _ | s
    · rw [View.marking, hview, ← stackOf, hstack]
      rfl
    · have hnot := (hg (hstack ▸ Option.some_ne_none s)).stage_ne hact houtcome .guarded
      exact absurd rfl hnot
  | guard => exact hsame rfl (View.marking_of_pending fun _ => by rw [hfooting]; rfl)
  | @act t memory epoch slot fresh =>
    obtain ⟨s, hs⟩ := hacc.exists_stack? (i := who.id) (.inr ⟨_, hself, rfl⟩)
    have hconcerns : c.hook.concerns s = true := h.expects who.id _ hself slot s rfl hs
    have hsane := h.sane_self hacc hact rfl (.inl rfl) rfl hs
    have hslot := slot?_of_active ho hact rfl
    have hpending : ((c.act m.tracer epoch slot fresh).2.footing c).isPending = false := by
      rcases Call.act_stage (c := c) m.tracer epoch slot fresh with hs | ⟨o, hs⟩ <;> rw [hs] <;> rfl
    have hmarking : (m.view who.id).marking ((m.step (.advance who)).view who.id) =
        if c.hook.invokes s then [c.method] else [] := by
      rw [View.marking, hview, hfooting, Roster.stackOf_of_slot? hslot, hs]
      show (if !((c.act m.tracer epoch slot fresh).2.footing c).isPending && c.hook.invokes s then
        [c.method] else []) = _
      rw [hpending]
      rfl
    rw [hinvoked, Call.act_marks hs hsane hconcerns epoch fresh k, hmarking]
  | @tell t memory epoch slot o =>
    exact hsame (c.enter_invoked ..) (hquiet fun _ _ hf => by cases hf)
  | _ => exact hsame rfl (hquiet fun _ _ hf => by cases hf)

/-- What becomes known to be invoked with a move is what threads mark with it. -/
theorem invoked_step (h : m.Poised) (hacc : m.Accounted) (ho : m.Orderly limit) (hp : m.Plain)
    (hx : m.Sequential x) (hreset : x.isReset = false)
    (hg : ∀ i, m.stackOf i ≠ none → Granted i m x) (k : MethodId) :
    (m.step x).tracer.invoked.contains k = true ↔ m.tracer.invoked.contains k = true ∨
      ∃ i, k ∈ (m.view i).marking ((m.step x).view i) := by
  have hothers (i : Nat) (hi : x.mover? ≠ some i) : (m.view i).marking ((m.step x).view i) = [] := by
    rw [view_step_of_ne ho x hreset hi]
    exact View.marking_of_pending id
  have hnone (hinvoked : (m.step x).tracer.invoked = m.tracer.invoked)
      (hself : ∀ i, x.mover? = some i → (m.view i).marking ((m.step x).view i) = []) :
      (m.step x).tracer.invoked.contains k = true ↔ m.tracer.invoked.contains k = true ∨
        ∃ i, k ∈ (m.view i).marking ((m.step x).view i) := by
    rw [hinvoked, or_iff_left]
    rintro ⟨i, hi⟩
    by_cases hmover : x.mover? = some i
    · rw [hself i hmover] at hi
      cases hi
    · rw [hothers i hmover] at hi
      cases hi
  cases x with
  | call who c counted =>
    have hidle : m.active who.id = [] := hx who.id rfl
    obtain ⟨stage, hcall, -⟩ := call_eq_put (ready_of_idle hidle) c counted
    refine hnone ?_ fun i hi => ?_
    · rw [step, hcall]
      exact settle_invoked ..
    · cases hi
      refine View.marking_of_not_pending ?_
      rw [view, View.of, hidle]
      rfl
  | advance who =>
    rcases hact : m.active who.id with _ | ⟨a, rest⟩
    · have hstep : m.step (.advance who) = m := advance_of_idle hact
      exact hnone (by rw [hstep]) fun i _ => by rw [hstep]; exact View.marking_of_pending id
    · rw [hp.rest_eq_nil hact] at hact
      rw [invoked_advance h hacc hact (hg who.id) ho]
      refine or_congr_right ⟨fun hk => ⟨who.id, hk⟩, ?_⟩
      rintro ⟨i, hi⟩
      by_cases hmover : who.id = i
      · rwa [hmover]
      · rw [hothers i fun heq => hmover (Option.some.inj heq)] at hi
        cases hi
  | suspend =>
    exact hnone (by rcases m.suspend_cases with heq | ⟨-, heq⟩ <;> rw [step, heq])
      fun _ hi => by cases hi
  | resume =>
    exact hnone (by rcases m.resume_cases with heq | ⟨-, heq⟩ <;> rw [step, heq])
      fun _ hi => by cases hi
  | reset l => cases hreset
  | elsewhere j r => exact hnone (by rw [step]; split <;> rfl) fun _ hi => by cases hi
  | _ => exact hnone rfl fun _ hi => by cases hi

/-- What is known to be invoked has been marked by threads. -/
def Marked (m : Machine) : Prop := ∀ k, m.tracer.invoked.contains k = true ↔
  ∃ i, k ∈ (m.view i).marks m.tracer.scribe

/-- A run that does not shut a thread out. -/
structure Calm (m : Machine) (i : Nat) (xs : List Move) : Prop where
  invited : m.Invited i
  included : ∀ x ∈ xs, x.excluded? ≠ some i
  granted : m.Along (Granted i) xs
  told : View.Told m.tracer.scribe False True (m.view i)

theorem Calm.tail (h : m.Calm i (x :: xs)) (ho : m.Orderly limit) (hreset : x.isReset = false) :
    (m.step x).Calm i xs := by
  obtain ⟨hincluded, hincluded'⟩ := List.forall_mem_cons.mp h.included
  refine ⟨h.invited.step ho x hreset hincluded h.granted.1, hincluded', h.granted.2, ?_⟩
  rw [m.scribe_step x hreset]
  exact h.told.step (view_step ho x hreset i False.elim fun _ => ⟨h.invited, h.granted.1⟩)

theorem view_stack_of_stranger (hnone : m.tracer.roster.slot? i = none) : (m.view i).stack = none := by
  rw [view, View.of, Roster.stackOf_of_slot?_eq_none hnone]
  rfl

theorem Marked.new (id : Nat) (s : Settings) (hasHandler : Bool) :
    (Machine.new (.new id s hasHandler)).Marked := by
  intro k
  refine ⟨fun hk => ?_, fun ⟨i, hk⟩ => (List.not_mem_nil hk).elim⟩
  rw [show (Machine.new (.new id s hasHandler)).tracer.invoked = .empty from rfl] at hk
  simp at hk

theorem Marked.step (h : m.Marked) (hpoised : m.Poised) (hacc : m.Accounted) (ho : m.Orderly limit)
    (hp : m.Plain) (hx : m.Sequential x) (hreset : x.isReset = false)
    (hcalm : ∀ i, (m.step x).tracer.roster.slot? i ≠ none → m.Calm i (x :: xs)) :
    (m.step x).Marked := by
  have hmarks (i : Nat) : ((m.step x).view i).marks (m.step x).tracer.scribe =
      (m.view i).marks m.tracer.scribe ++ (m.view i).marking ((m.step x).view i) := by
    rw [m.scribe_step x hreset]
    by_cases hslot : (m.step x).tracer.roster.slot? i = none
    · have hstack := view_stack_of_stranger (slot?_of_step hreset hslot)
      rw [View.marks, view_stack_of_stranger hslot, View.marks, hstack, View.marking, hstack]
      rfl
    · obtain ⟨hinvited, -, hgranted, htold⟩ := hcalm i hslot
      exact (view_step ho x hreset i False.elim fun _ => ⟨hinvited, hgranted.1⟩).marks htold
  have hgranted (i : Nat) (hstack : m.stackOf i ≠ none) : Granted i m x := by
    refine (hcalm i fun hnone => hstack ?_).granted.1
    exact Roster.stackOf_of_slot?_eq_none (slot?_of_step hreset hnone)
  intro k
  simp only [invoked_step hpoised hacc ho hp hx hreset hgranted k, h k, hmarks, List.mem_append,
    exists_or]

theorem Marked.run {st : Settings} {hasHandler : Bool} (h : m.Marked)
    (hr : m.Reckoned st hasHandler) (hpoised : m.Poised) (ho : m.Orderly limit) (hp : m.Plain)
    (hx : m.Along Sequential xs) (hcounted : ∀ x ∈ xs, x.isCounted = true)
    (hreset : ∀ x ∈ xs, x.isReset = false)
    (hcalm : ∀ i, (m.run xs).tracer.roster.slot? i ≠ none → m.Calm i xs) : (m.run xs).Marked := by
  induction xs generalizing m with
  | nil => exact h
  | cons x xs ih =>
    obtain ⟨hcounted, hcounted'⟩ := List.forall_mem_cons.mp hcounted
    obtain ⟨hreset, hreset'⟩ := List.forall_mem_cons.mp hreset
    have hcalm' (i : Nat) (hslot : (m.step x).tracer.roster.slot? i ≠ none) : m.Calm i (x :: xs) :=
      hcalm i fun hnone => hslot (slot?_of_run hreset' hnone)
    exact ih (h.step hpoised hr.accounted ho hp hx.1 hreset hcalm') (hr.step x)
      (hpoised.step hr.accounted hr.made.steady.going x) (ho.step x hreset)
      (hp.step hx.1 hcounted) hx.2 hcounted' hreset' fun i hslot => (hcalm i hslot).tail ho hreset

end Machine

end MethodTrace
