import MethodTrace.Proofs.Nesting
import MethodTrace.Proofs.Rooted

/-!
# What one thread sees

A thread sees its stack, where it is with its own calls, and the records with its number; the
guards, the other threads and the queue it does not see. `View.Goes` lists what can happen to it.
`View.Told` is what it may count on: stack and records are those of `Scribe.follow` for the calls
that have had their effect. Two things are left open here. Records are as they should be if the run
is `lossless`; the calls are all that are not hushed if it is `calm`.
-/

namespace MethodTrace

/-- Where a thread is with the outermost of its calls. A pending call has had no effect yet; it may
have registered its thread, and it may have found out that it concerns the stack. -/
inductive Footing where
  | idle
  | pending (c : Call) (fresh cleared : Bool)
  | telling (c : Call) (o : Opening)

/-- The call whose frame has yet to be opened or closed. -/
def Footing.calls : Footing → List Call
  | idle => []
  | pending c .. | telling c _ => [c]

/-- Whether it is still open if the call will have an effect. -/
def Footing.isPending : Footing → Bool
  | pending .. => true
  | idle | telling .. => false

structure View where
  /-- The stack, but for its guard, if the thread is registered. -/
  stack : Option CallStack
  footing : Footing
  records : List Record
  journal : List (Bool × Call)

namespace View

inductive Goes (w : ThreadNo → Scribe) (lossless calm : Prop) : View → View → Prop where
  | stay (v : View) : Goes w lossless calm v v
  | miss (stack : Option CallStack) (rs : List Record) (js : List (Bool × Call)) (c : Call) :
    Goes w lossless calm ⟨stack, .idle, rs, js⟩ ⟨stack, .idle, rs, js ++ [(true, c)]⟩
  | start (stack : Option CallStack) (rs : List Record) (js : List (Bool × Call)) (c : Call) :
    Goes w lossless calm ⟨stack, .idle, rs, js⟩
      ⟨stack, .pending c false false, rs, js ++ [(false, c)]⟩
  | giveUp {c : Call} {fresh cleared : Bool} (stack : Option CallStack) (rs : List Record)
    (js : List (Bool × Call)) (h : ¬ calm) :
    Goes w lossless calm ⟨stack, .pending c fresh cleared, rs, js⟩ ⟨stack, .idle, rs, js⟩
  | register {c : Call} {cleared : Bool} (no : ThreadNo) (name : Option String) (rs : List Record)
    (js : List (Bool × Call)) (h : c.hook.enrolls = true) :
    Goes w lossless calm ⟨none, .pending c false cleared, rs, js⟩
      ⟨some (.new no name), .pending c true false, rs, js⟩
  | strange {c : Call} {fresh : Bool} (rs : List Record) (js : List (Bool × Call))
    (h : c.hook.enrolls = false) :
    Goes w lossless calm ⟨none, .pending c fresh false, rs, js⟩ ⟨none, .idle, rs, js⟩
  | skip {c : Call} {fresh : Bool} {s : CallStack} (rs : List Record) (js : List (Bool × Call))
    (h : c.hook.concerns s = false) :
    Goes w lossless calm ⟨some s, .pending c fresh false, rs, js⟩ ⟨some s, .idle, rs, js⟩
  | clear {c : Call} {fresh : Bool} {s : CallStack} (rs : List Record) (js : List (Bool × Call))
    (h : c.hook.concerns s = true) :
    Goes w lossless calm ⟨some s, .pending c fresh false, rs, js⟩
      ⟨some s, .pending c fresh true, rs, js⟩
  | act {c : Call} {fresh : Bool} {s : CallStack} (rs : List Record) (js : List (Bool × Call))
    {new : List Record}
    (h : lossless → new = c.greeting (w s.no) fresh ++ (c.deed (w s.no) s).2) :
    Goes w lossless calm ⟨some s, .pending c fresh true, rs, js⟩
      ⟨some (c.deed (w s.no) s).1, .idle, rs ++ new, js⟩
  | pause {c : Call} {fresh : Bool} {s : CallStack} {o : Opening} (rs : List Record)
    (js : List (Bool × Call)) {new : List Record} (ho : c.hook.opening? s = some o)
    (h : lossless → new = c.greeting (w s.no) fresh) :
    Goes w lossless calm ⟨some s, .pending c fresh true, rs, js⟩
      ⟨some (o.prepare s), .telling c o, rs ++ new, js⟩
  | tell {c : Call} {s : CallStack} {o : Opening} (rs : List Record) (js : List (Bool × Call))
    {new : List Record}
    (h : lossless → new = (w s.no).frame (o.push s).depth.toNat o.kind c.method none) :
    Goes w lossless calm ⟨some s, .telling c o, rs, js⟩ ⟨some (o.push s), .idle, rs ++ new, js⟩

/-- The records of a thread are those of its calls, behind the one that tells its registration. That
one is lost if the call that registered the thread did not come to its end. -/
def Wrote (w : Scribe) (lossless calm : Prop) (rs rs' : List Record) : Prop :=
  lossless → ∃ pre, (pre = [] ∨ pre = [w.created]) ∧ (calm → pre = [w.created]) ∧ rs = pre ++ rs'

/-- `done` are the calls that have had their effect. -/
inductive Told (w : ThreadNo → Scribe) (lossless calm : Prop) : View → Prop where
  | stranger {done : List Call} {footing : Footing} {js : List (Bool × Call)}
    (hdone : ∀ c ∈ done, c.hook.enrolls = false)
    (hf : footing = .idle ∨ ∃ c cleared, footing = .pending c false cleared)
    (hjs : calm → heard js = done ++ footing.calls) : Told w lossless calm ⟨none, footing, [], js⟩
  | fresh {done : List Call} {c : Call} {cleared : Bool} {js : List (Bool × Call)} (no : ThreadNo)
    (name : Option String) (hdone : ∀ c ∈ done, c.hook.enrolls = false)
    (hc : c.hook.enrolls = true) (hjs : calm → heard js = done ++ [c]) :
    Told w lossless calm ⟨some (.new no name), .pending c true cleared, [], js⟩
  | known {done : List Call} {no : ThreadNo} {name : Option String} {s : CallStack}
    {footing : Footing} {rs : List Record} {js : List (Bool × Call)}
    (hs : ((w no).follow done (.new no name)).1 = s)
    (hf : ∀ c fresh cleared, footing = .pending c fresh cleared →
      fresh = false ∧ (cleared = true → c.hook.concerns s = true))
    (ht : ∀ c o, footing ≠ .telling c o)
    (hrs : Wrote (w no) lossless calm rs ((w no).follow done (.new no name)).2)
    (hjs : calm → heard js = done ++ footing.calls) (he : calm → ∃ c ∈ done, c.hook.enrolls = true) :
    Told w lossless calm ⟨some s, footing, rs, js⟩
  | telling {done : List Call} {no : ThreadNo} {name : Option String} {s : CallStack} {c : Call}
    {o : Opening} {rs : List Record} {js : List (Bool × Call)}
    (hs : ((w no).follow done (.new no name)).1 = s) (hc : c.hook.concerns s = true)
    (ho : c.hook.opening? s = some o)
    (hrs : Wrote (w no) lossless calm rs ((w no).follow done (.new no name)).2)
    (hjs : calm → heard js = done ++ [c]) (he : calm → ∃ c' ∈ done ++ [c], c'.hook.enrolls = true) :
    Told w lossless calm ⟨some (o.prepare s), .telling c o, rs, js⟩

variable {w : ThreadNo → Scribe} {lossless calm : Prop} {v v' : View}

theorem heard_concat (js : List (Bool × Call)) (hushed : Bool) (c : Call) :
    heard (js ++ [(hushed, c)]) = heard js ++ if hushed then [] else [c] := by
  rw [heard_append]
  cases hushed <;> rfl

/-- One more call has had its effect. -/
theorem Told.concat {done : List Call} {no : ThreadNo} {name : Option String} {s s' : CallStack}
    {c : Call} {rs new : List Record} {js : List (Bool × Call)}
    (hs : ((w no).follow done (.new no name)).1 = s) (heffect : c.effect (w no) s = (s', new))
    (hrs : Wrote (w no) lossless calm rs (((w no).follow done (.new no name)).2 ++ new))
    (hjs : calm → heard js = done ++ [c]) (he : calm → ∃ c' ∈ done ++ [c], c'.hook.enrolls = true) :
    Told w lossless calm ⟨some s', .idle, rs, js⟩ := by
  have hfollow : (w no).follow (done ++ [c]) (.new no name) =
      (s', ((w no).follow done (.new no name)).2 ++ new) := by
    rw [Scribe.follow_concat, hs, heffect]
  have hs' : ((w no).follow (done ++ [c]) (.new no name)).1 = s' := by rw [hfollow]
  refine .known hs' (by simp) (by simp) (by rw [hfollow]; exact hrs) (fun hcalm => ?_) he
  rw [hjs hcalm, Footing.calls, List.append_nil]

theorem Wrote.append {w : Scribe} {rs rs' new new' : List Record}
    (h : Wrote w lossless calm rs rs') (hnew : lossless → new = new') :
    Wrote w lossless calm (rs ++ new) (rs' ++ new') := by
  intro hl
  obtain ⟨pre, hpre, hcalm, rfl⟩ := h hl
  exact ⟨pre, hpre, hcalm, by rw [hnew hl, List.append_assoc]⟩

/-- A call that is about to have its effect: what it writes goes behind what has been written, and
behind the record of the registration if this call has registered the thread. -/
theorem Told.cleared {s : CallStack} {c : Call} {fresh : Bool} {rs : List Record}
    {js : List (Bool × Call)} (h : Told w lossless calm ⟨some s, .pending c fresh true, rs, js⟩) :
    ∃ done no name, ((w no).follow done (.new no name)).1 = s ∧ s.no = no ∧
      c.hook.concerns s = true ∧
      (∀ {new new'}, (lossless → new = c.greeting (w no) fresh ++ new') →
        Wrote (w no) lossless calm (rs ++ new) (((w no).follow done (.new no name)).2 ++ new')) ∧
      (calm → heard js = done ++ [c]) ∧ (calm → ∃ c' ∈ done ++ [c], c'.hook.enrolls = true) := by
  cases h with
  | @fresh done _ _ _ no name hdone hc hjs =>
    have hfollow := (w no).follow_new hdone no name
    have hgreeting : c.greeting (w no) true = [(w no).created] := by
      rw [Call.greeting, hc]
      rfl
    refine ⟨done, no, name, congrArg Prod.fst hfollow, rfl, Hook.concerns_of_enrolls hc _,
      fun hnew hl => ?_, hjs, fun _ => ⟨c, by simp, hc⟩⟩
    refine ⟨_, .inr rfl, fun _ => rfl, ?_⟩
    rw [hnew hl, hfollow, hgreeting]
    rfl
  | @known done no name _ _ _ _ hs hf ht hrs hjs he =>
    obtain ⟨rfl, hc⟩ := hf _ _ _ rfl
    have hno : s.no = no := by rw [← hs, Scribe.follow_no]; rfl
    have hgreeting : c.greeting (w no) false = [] := by rw [Call.greeting, Bool.and_false]; rfl
    refine ⟨done, no, name, hs, hno, hc rfl, fun hnew => hrs.append fun hl => ?_, hjs,
      fun hcalm => ?_⟩
    · rw [hnew hl, hgreeting]
      rfl
    · obtain ⟨c', hc', henrolls⟩ := he hcalm
      exact ⟨c', List.mem_append_left _ hc', henrolls⟩

/-- A step of a thread adds at most one call to those that have had their effect. -/
theorem Told.step (h : Told w lossless calm v) (hv : Goes w lossless calm v v') :
    Told w lossless calm v' := by
  cases hv with
  | stay => exact h
  | miss stack rs js c =>
    cases h with
    | stranger hdone hf hjs =>
      exact .stranger hdone (.inl rfl) fun hc => by simp [heard_concat, hjs hc]
    | known hs hf ht hrs hjs he =>
      exact .known hs (by simp) (by simp) hrs (fun hc => by simp [heard_concat, hjs hc]) he
  | start stack rs js c =>
    cases h with
    | stranger hdone hf hjs =>
      exact .stranger hdone (.inr ⟨c, false, rfl⟩) fun hc => by
        simp [heard_concat, hjs hc, Footing.calls]
    | known hs hf ht hrs hjs he =>
      refine .known hs (fun c' fresh cleared heq => ?_) (by simp) hrs
        (fun hc => by simp [heard_concat, hjs hc, Footing.calls]) he
      cases heq
      exact ⟨rfl, by simp⟩
  | giveUp stack rs js hcalm =>
    cases h with
    | stranger hdone => exact .stranger hdone (.inl rfl) fun hc => absurd hc hcalm
    | fresh no name hdone =>
      have hfollow := (w no).follow_new hdone no name
      have hs := congrArg Prod.fst hfollow
      refine .known hs (by simp) (by simp) (fun _ => ⟨[], .inl rfl, fun hc => absurd hc hcalm, ?_⟩)
        (fun hc => absurd hc hcalm) fun hc => absurd hc hcalm
      rw [hfollow]
      rfl
    | known hs _ _ hrs =>
      exact .known hs (by simp) (by simp) hrs (fun hc => absurd hc hcalm) fun hc => absurd hc hcalm
  | register no name rs js hc =>
    cases h with
    | stranger hdone hf hjs => exact .fresh no name hdone hc hjs
  | @strange c fresh rs js hc =>
    cases h with
    | @stranger done _ _ hdone hf hjs =>
      have hdone' : ∀ c' ∈ done ++ [c], c'.hook.enrolls = false := fun c' hc' => by
        rcases List.mem_append.mp hc' with hc' | hc'
        · exact hdone c' hc'
        · rw [List.mem_singleton.mp hc']; exact hc
      refine .stranger hdone' (.inl rfl) fun hcalm => ?_
      rw [hjs hcalm, Footing.calls, Footing.calls, List.append_nil]
  | skip rs js hc =>
    cases h with
    | fresh no name hdone henrolls => rw [Hook.concerns_of_enrolls henrolls] at hc; cases hc
    | known hs hf ht hrs hjs he =>
      refine .concat hs (by rw [Call.effect, hc]; rfl) (by rwa [List.append_nil]) hjs fun hcalm => ?_
      obtain ⟨c', hc', henrolls⟩ := he hcalm
      exact ⟨c', List.mem_append_left _ hc', henrolls⟩
  | clear rs js hc =>
    cases h with
    | fresh no name hdone henrolls hjs => exact .fresh no name hdone henrolls hjs
    | known hs hf ht hrs hjs he =>
      refine .known hs (fun c' fresh cleared heq => ?_) (by simp) hrs hjs he
      have := (hf _ _ _ rfl).1
      cases heq
      exact ⟨this, fun _ => hc⟩
  | act rs js hnew =>
    obtain ⟨done, no, name, hs, hno, hc, hwrote, hjs, he⟩ := h.cleared
    rw [hno] at hnew ⊢
    exact .concat hs (by rw [Call.effect, hc]; rfl) (hwrote hnew) hjs he
  | pause rs js ho hnew =>
    obtain ⟨done, no, name, hs, hno, hc, hwrote, hjs, he⟩ := h.cleared
    rw [hno] at hnew
    have hrs := hwrote fun hl => (hnew hl).trans (List.append_nil _).symm
    rw [List.append_nil] at hrs
    exact .telling hs hc ho hrs hjs he
  | @tell c s o rs js new hnew =>
    cases h with
    | known hs hf ht => exact absurd rfl (ht _ _)
    | @telling done no name s _ _ _ _ hs hc ho hrs hjs he =>
      have hno : (o.prepare s).no = no := by rw [Opening.prepare_no, ← hs, Scribe.follow_no]; rfl
      rw [hno] at hnew
      refine .concat hs ?_ (hrs.append hnew) hjs he
      rw [Call.effect, hc]
      simp only [↓reduceIte, Call.deed, ho]

end View

end MethodTrace
