import MethodTrace.Proofs.Course

/-!
# Arbitrary instrumentation

A thread may call the hooks in any order, and be suspended and resumed at any moment. Its stack stays
sane, so that no root's entry is ever led astray, and its records tell of entries and exits in an
order in which nothing happens in a root that has not been entered (`call_stacks_stay_sane`).
-/

namespace MethodTrace

namespace View.Told
variable {w : ThreadNo → Scribe} {lossless calm : Prop} {v : View} {s : CallStack}

/-- A stack is sane but while a first invocation is told. -/
theorem sane (h : Told w lossless calm v) (hf : ∀ c o, v.footing ≠ .telling c o)
    (hs : v.stack = some s) : s.Sane := by
  cases h with
  | stranger => cases hs
  | fresh no name => cases hs; exact .new no name
  | known hfollow => cases hs; rw [← hfollow]; exact (CallStack.Sane.new _ _).follow _ _
  | telling => exact absurd rfl (hf _ _)

/-- What the records say about the stack they say also while a first invocation is told. -/
theorem consistent (h : Told w lossless calm v) (hl : lossless)
    (hw : ∀ no, (w no).limit = 0xffffffff) (hs : v.stack = some s) (hsh : Shallow v.records) :
    ∃ s', Consistent s' v.records ∧ s'.depth = s.depth := by
  have key : ∀ {done no name rs}, Wrote (w no) lossless calm rs
      ((w no).follow done (.new no name)).2 → Shallow rs →
      Consistent ((w no).follow done (.new no name)).1 rs := by
    intro done no name rs hrs hsh
    obtain ⟨pre, hpre, -, rfl⟩ := hrs hl
    refine Consistent.follow (.new no name fun r hr => ?_) (hw no) done hsh
    rcases hpre with rfl | rfl
    · cases hr
    · rw [List.mem_singleton.mp hr]; rfl
  cases h with
  | stranger => cases hs
  | fresh no name => cases hs; exact ⟨_, .new no name (List.forall_mem_nil _), rfl⟩
  | known hfollow hf ht hrs => cases hs; exact ⟨_, key hrs hsh, by rw [hfollow]⟩
  | telling hfollow hc ho hrs => cases hs; exact ⟨_, key hrs hsh, by rw [hfollow]; simp⟩

end View.Told

namespace Machine
variable {m : Machine} {limit : UInt32} {i : Nat}

/-- A thread sees its stack but for the guard. -/
theorem view_stack {c : CallStack} (hc : m.stackOf i = some c) :
    (m.view i).stack = some (c.withGuard 0) := by
  have hc' : m.tracer.roster.stackOf i = some c := hc
  rw [view, View.of, hc']
  rfl

/-- Between two calls of a thread its stack is sane, and so it is when one of them acts. -/
theorem sane_of_told {w : ThreadNo → Scribe} (ht : View.Told w False False (m.view i))
    (hf : ∀ c o, footing (m.active i) ≠ .telling c o) {c : CallStack} (hc : m.stackOf i = some c) :
    c.Sane := by
  have := ht.sane hf (view_stack hc)
  exact ⟨this.inGraph, this.root⟩

end Machine

/-- Whatever hooks a thread calls and in which order, its stack is sane between its calls: it is in
the graph if and only if it has frames, and only in the graph it can have a root. So the entry of a
root never finds a stack that has frames and is not in the graph. If all frames are recorded, no
record is dropped and the epochs do not run out under a call, the records with the thread's number
count its frames, and nothing happens in a root that has not been entered. -/
theorem call_stacks_stay_sane (id : Nat) (s : Settings) (hasHandler : Bool) (xs : List Move)
    (hx : ∀ x ∈ xs, x.isReset = false) :
    let m := (Machine.new (.new id s hasHandler)).run xs
    (∀ i c, m.active i = [] → m.stackOf i = some c →
      (c.inGraph = true ↔ 0 < c.depth) ∧ (0 < c.rootDepth → c.inGraph = true)) ∧
    (∀ i, ∀ a ∈ m.active i, ∀ epoch slot fresh c, a.call.hook = .rootEntry →
      a.stage = .guarding epoch slot fresh → m.tracer.roster.stack? slot = some c →
      ¬ (c.inGraph = false ∧ 0 < c.depth)) ∧
    (s.depthLimit = 0xffffffff →
      Machine.Along Machine.NoDrop (Machine.new (.new id s hasHandler)) xs →
      ∀ i c, Machine.Along (Machine.EpochLeft i) (Machine.new (.new id s hasHandler)) xs →
        m.stackOf i = some c → Shallow (m.recordsOf i) →
        c.depth.toNat + (m.recordsOf i).countP Record.isExit =
          (m.recordsOf i).countP Record.isEntry ∧
        (∀ r, (m.recordsOf i).find? (fun r => r.isOf .rootEntry || r.isOf .rootExit) = some r →
          r.isOf .rootEntry = true) ∧
        (∀ a r b r' c, m.recordsOf i = a ++ r :: (b ++ r' :: c) → r.isOf .rootExit = true →
          r'.isOf .rootExit = true → ∃ e ∈ b, e.isOf .rootEntry = true) ∧
        (∀ a r b, m.recordsOf i = a ++ r :: b →
          (r.isOf .methodEntry || r.isOf .methodExit) = true → Rooted a)) := by
  intro m
  have hnew := Machine.Orderly.new id s hasHandler
  have horderly : m.Orderly s.threadSlots := hnew.run xs hx
  have htold : ∀ i, View.Told _ False False (m.view i) := fun i =>
    Machine.told_run hnew hx False.elim False.elim False.elim (Machine.told_new ..)
  refine ⟨fun i c hidle hc => ?_, fun i a ha epoch slot fresh c _ hstage hc => ?_,
    fun hlimit hdrop i c hepoch hc hshallow => ?_⟩
  · have hsane := Machine.sane_of_told (htold i) (by simp [hidle, footing]) hc
    exact ⟨hsane.inGraph, hsane.root⟩
  · have hactive : m.active i = [a] :=
      (horderly.stacked i).eq_singleton ha (by rw [hstage]; rfl) (by rw [hstage]; rfl)
    have hslot := horderly.slot i a ha slot (by rw [hstage]; rfl)
    have hc' : m.stackOf i = some c := (Roster.stackOf_of_slot? hslot).trans hc
    have hsane := Machine.sane_of_told (htold i) (by simp [hactive, footing, hstage, Stage.footing]) hc'
    rintro ⟨hg, hd⟩
    rw [hsane.inGraph.mpr hd] at hg
    cases hg
  · have hadmits := (Machine.Passes.new id s hasHandler i).admits rfl hepoch hdrop
    have ht : View.Told _ True False (m.view i) :=
      Machine.told_run hnew hx False.elim (fun _ => hadmits) False.elim (Machine.told_new ..)
    obtain ⟨s', hs', hdepth⟩ :=
      ht.consistent trivial (fun _ => hlimit) (Machine.view_stack hc) hshallow.map_timeless
    have hordered : Ordered (m.recordsOf i) := hs'.ordered.of_map_timeless
    refine ⟨?_, fun r hr => ?_, fun a r b r' c heq hr hr' => hordered.entry_between heq hr hr',
      fun a r b heq hr => hordered a r b heq ?_⟩
    · have := hs'.depth
      rw [hdepth] at this
      simp only [Machine.view, View.of, List.countP_map] at this
      exact this
    · obtain ⟨hr, a, b, heq, ha⟩ := List.find?_eq_some_iff_append.mp hr
      cases hentry : r.isOf .rootEntry with
      | true => rfl
      | false =>
        rw [hentry, Bool.false_or] at hr
        obtain ⟨e, he, hee⟩ := hordered.entry_before heq hr
        have := ha e he
        rw [hee] at this
        cases this
    · rw [Record.needsRoot, Bool.or_assoc, hr, Bool.or_true]

/-- A marker that closes a root, and a root's exit that finds nothing to close. -/
theorem call_stacks_stay_sane_unbalanced :
    let hook (h : Hook) (k : UInt16) : List Move :=
      .call ⟨0, none⟩ ⟨h, ⟨k⟩, none⟩ true :: List.replicate 5 (.advance ⟨0, none⟩)
    let xs : List Move := hook .markerEntry 1 ++ hook .rootEntry 2 ++ hook .markerExit 3 ++
      hook .methodExit 4 ++ hook .rootExit 5
    let m := (Machine.new (.new 0 .default false)).run xs
    (∀ x ∈ xs, x.isReset = false) ∧ Settings.default.depthLimit = 0xffffffff ∧
      Machine.Along Machine.NoDrop (Machine.new (.new 0 .default false)) xs ∧
      Machine.Along (Machine.EpochLeft 0) (Machine.new (.new 0 .default false)) xs ∧
      ∃ c, m.stackOf 0 = some c ∧ (m.recordsOf 0).length = 5 ∧ c.depth.toNat +
        (m.recordsOf 0).countP Record.isExit = (m.recordsOf 0).countP Record.isEntry := by
  intro hook xs m
  have hx : ∀ x ∈ xs, x.isReset = false := by decide
  have hdrop : Machine.Along Machine.NoDrop (Machine.new (.new 0 .default false)) xs := by decide
  have hepoch : Machine.Along (Machine.EpochLeft 0) (Machine.new (.new 0 .default false)) xs := by
    decide
  have hlength : (m.recordsOf 0).length = 5 := by decide
  have hc : m.stackOf 0 = some ⟨⟨1⟩, none, false, 0, 0, 0⟩ := by decide
  refine ⟨hx, rfl, hdrop, hepoch, _, hc, hlength, ?_⟩
  exact ((call_stacks_stay_sane 0 .default false xs hx).2.2 rfl hdrop 0 _ hepoch hc
    (shallow_of_length (by rw [hlength]; decide))).1

end MethodTrace
