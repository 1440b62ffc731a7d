import MethodTrace.Proofs.Room

/-!
# Runs of nested calls

What threads write whose calls are nested. If nothing shuts a thread out, its records are the
reference of its calls (`nested_calls_are_recorded`), whatever the other threads do meanwhile. Tracing
may be suspended between any two of its hooks as long as no frame loses one of its ends alone
(`suspension_keeps_nesting`).
-/

namespace MethodTrace

theorem Record.nest_timeless (ms : List UInt16) (r : Record) : r.timeless.nest ms = r.nest ms := rfl

theorem unmatched_map_timeless (ms : List UInt16) (rs : List Record) :
    unmatched ms (rs.map Record.timeless) = unmatched ms rs := by
  induction rs generalizing ms with
  | nil => rfl
  | cons r rs ih =>
    simp only [unmatched, List.map_cons, List.foldlM_cons, Record.nest_timeless] at ih ⊢
    cases r.nest ms with
    | none => rfl
    | some ms' => exact ih ms'

/-- Nothing is entered or exited when a thread is registered. -/
theorem unmatched_of_created {w : Scribe} {rs : List Record} (h : ∀ r ∈ rs, r = w.created)
    (ms : List UInt16) : unmatched ms rs = some ms := by
  induction rs with
  | nil => rfl
  | cons r rs ih =>
    rw [h r List.mem_cons_self]
    exact ih fun r hr => h r (List.mem_cons_of_mem _ hr)

theorem heard_mono {js ks : List (Bool × Call)} (h : js <+: ks) : heard js <+: heard ks := by
  obtain ⟨l, rfl⟩ := h
  exact ⟨heard l, (heard_append js l).symm⟩

namespace View.Told
variable {w : ThreadNo → Scribe} {lossless calm : Prop} {v : View}

/-- A thread between two calls: all that are not hushed have had their effect. -/
theorem idle (h : Told w lossless calm v) (hl : lossless) (hc : calm) (hf : v.footing = .idle) :
    (v.stack = none ∧ v.records = [] ∧ (heard v.journal).any (·.hook.enrolls) = false) ∨
    ∃ no name, v.stack = some ((w no).follow (heard v.journal) (.new no name)).1 ∧
      v.records = (w no).created :: ((w no).follow (heard v.journal) (.new no name)).2 ∧
      (heard v.journal).any (·.hook.enrolls) = true := by
  cases h with
  | stranger hdone _ hjs =>
    simp only at hf
    subst hf
    refine .inl ⟨rfl, rfl, ?_⟩
    simp only [hjs hc, Footing.calls, List.append_nil, List.any_eq_false]
    exact fun c hmem => by simp [hdone c hmem]
  | fresh => cases hf
  | @known done no name _ footing _ js hs _ _ hrs hjs he =>
    simp only at hf
    subst hf
    obtain ⟨pre, -, hpre, heq⟩ := hrs hl
    have hdone : heard js = done := by rw [hjs hc, Footing.calls, List.append_nil]
    refine .inr ⟨no, name, ?_⟩
    simp only [hdone, hs, heq, hpre hc, List.singleton_append, List.any_eq_true]
    exact ⟨trivial, trivial, he hc⟩
  | telling => cases hf

/-- A thread at any time: the records are those of the calls that have had their effect. -/
theorem records (h : Told w lossless calm v) (hl : lossless) (hc : calm) :
    ∃ pre done no name, (∀ r ∈ pre, r = (w no).created) ∧ done <+: heard v.journal ∧
      v.records = pre ++ ((w no).follow done (.new no name)).2 := by
  have created : ∀ {no rs rs'}, Wrote (w no) lossless calm rs rs' →
      ∃ pre, (∀ r ∈ pre, r = (w no).created) ∧ rs = pre ++ rs' := fun hrs => by
    obtain ⟨pre, hpre, -, heq⟩ := hrs hl
    refine ⟨pre, fun r hr => ?_, heq⟩
    rcases hpre with rfl | rfl
    · cases hr
    · exact List.mem_singleton.mp hr
  cases h with
  | stranger => exact ⟨[], [], ⟨0⟩, none, List.forall_mem_nil _, List.nil_prefix, rfl⟩
  | fresh no name => exact ⟨[], [], no, name, List.forall_mem_nil _, List.nil_prefix, rfl⟩
  | known _ _ _ hrs hjs =>
    obtain ⟨pre, hpre, heq⟩ := created hrs
    exact ⟨pre, _, _, _, hpre, ⟨_, (hjs hc).symm⟩, heq⟩
  | telling _ _ _ hrs hjs =>
    obtain ⟨pre, hpre, heq⟩ := created hrs
    exact ⟨pre, _, _, _, hpre, ⟨_, (hjs hc).symm⟩, heq⟩

end View.Told

open PlacedCall CallTree in
/-- What nested calls do on a thread that has just been registered. -/
theorem Scribe.follow_hooksOf_new (w : Scribe) (no : ThreadNo) (name : Option String)
    {ps : List PlacedCall} (hw : WholeOf false false ps)
    (hd : heightOf (runningOf ps) < UInt32.size) :
    w.follow (heard (hooksOf ps)) (.new no name) =
      (.new no name, referenceOf w 0 false (runningOf ps)) :=
  follow_hooksOf (.new no name) w ps hw (by simpa [CallStack.new] using hd)

open PlacedCall CallTree in
/-- A thread between two calls, all of which were nested. -/
theorem View.Told.nested {w : ThreadNo → Scribe} {lossless calm : Prop} {v : View}
    (h : Told w lossless calm v) (hl : lossless) (hc : calm) (hf : v.footing = .idle)
    {ps : List PlacedCall} (hjs : v.journal = hooksOf ps) (hw : WholeOf false false ps)
    (hd : heightOf (runningOf ps) < UInt32.size) :
    (v.stack = none ∧ v.records = [] ∧ enrollsOf (runningOf ps) = false) ∨
    ∃ no name, v.stack = some (.new no name) ∧
      v.records = (w no).created :: referenceOf (w no) 0 false (runningOf ps) ∧
      enrollsOf (runningOf ps) = true := by
  have henrolls := any_enrolls_hooksOf false false ps hw
  have hidle := h.idle hl hc hf
  rw [hjs, henrolls] at hidle
  refine hidle.imp id ?_
  rintro ⟨no, name, hstack, hrecords, hsome⟩
  rw [Scribe.follow_hooksOf_new _ no name hw hd] at hstack hrecords
  exact ⟨no, name, hstack, hrecords, hsome⟩

namespace Machine
variable {m : Machine} {i : Nat}

/-- What a thread may count on whose calls are not refused once they have begun. -/
theorem told_of_granted {id : Nat} {s : Settings} {hasHandler : Bool} {xs : List Move}
    (hx : ∀ x ∈ xs, x.isReset = false) (hdrop : Along NoDrop (.new (.new id s hasHandler)) xs)
    (hepoch : Along (EpochLeft i) (.new (.new id s hasHandler)) xs)
    (hexclude : ∀ x ∈ xs, x.excluded? ≠ some i)
    (hgranted : Along (Granted i) (.new (.new id s hasHandler)) xs) :
    View.Told (fun no => ⟨no, s.depthLimit, s.captureReturns⟩) True True
      (((Machine.new (.new id s hasHandler)).run xs).view i) :=
  told_run (Orderly.new id s hasHandler) hx (fun _ => .new id s hasHandler i)
    (fun _ => (Passes.new id s hasHandler i).admits rfl hepoch hdrop)
    (fun _ => ⟨hexclude, hgranted⟩) (told_new ..)

/-- What a thread may count on that nothing shuts out. -/
theorem told_of_spares {id : Nat} {s : Settings} {hasHandler : Bool} {xs : List Move}
    (hx : ∀ x ∈ xs, x.isReset = false) (hdrop : Along NoDrop (.new (.new id s hasHandler)) xs)
    (hepoch : Along (EpochLeft i) (.new (.new id s hasHandler)) xs)
    (hexclude : ∀ x ∈ xs, x.excluded? ≠ some i)
    (hspares : Along (fun m x => m.Spares i x) (.new (.new id s hasHandler)) xs) :
    View.Told (fun no => ⟨no, s.depthLimit, s.captureReturns⟩) True True
      (((Machine.new (.new id s hasHandler)).run xs).view i) :=
  told_of_granted hx hdrop hepoch hexclude
    ((Welcome.new id s hasHandler i).granted_run (.new id s hasHandler) hx hspares)

theorem view_of_idle (h : m.active i = []) : (m.view i).footing = .idle := by
  simp [view, View.of, h, footing]

theorem stackOf_eq_none (h : (m.view i).stack = none) : m.stackOf i = none :=
  Option.map_eq_none_iff.mp h

theorem stackOf_eq_some {s : CallStack} (h : (m.view i).stack = some s) :
    ∃ c, m.stackOf i = some c ∧ c.withGuard 0 = s :=
  Option.map_eq_some_iff.mp h

theorem records_view (m : Machine) (i : Nat) :
    (m.view i).records = (m.recordsOf i).map Record.timeless := rfl

end Machine

open PlacedCall CallTree Machine in
/-- However the threads of a crew take turns, each of them writes the reference of its calls behind
the record of its registration, and nothing if none of them registers it. Their number is no larger
than the roster, no record is dropped, and no thread is kept out. Calls that are hushed at both ends
are left out of the reference, and so are those that are hushed at one end and open no frame. What
is done while a first invocation is told makes no difference. -/
theorem nested_calls_are_recorded (id : Nat) (s : Settings) (hasHandler : Bool) (crew : List Nat)
    (hcrew : crew.length ≤ s.threadSlots.toNat) (xs : List Move)
    (hx : ∀ x ∈ xs, x.isReset = false) (hcall : ∀ x ∈ xs, ∀ j ∈ x.caller?, j ∈ crew)
    (hdrop : Along NoDrop (.new (.new id s hasHandler)) xs) :
    let m := (Machine.new (.new id s hasHandler)).run xs
    ∀ i ∈ crew, (∀ x ∈ xs, x.excluded? ≠ some i) →
      Along (Settled i) (.new (.new id s hasHandler)) xs →
      Along (EpochLeft i) (.new (.new id s hasHandler)) xs →
      ∀ ps, m.active i = [] → m.journal i = hooksOf ps → WholeOf false false ps →
        heightOf (runningOf ps) < UInt32.size →
        (enrollsOf (runningOf ps) = false → m.stackOf i = none ∧ m.recordsOf i = []) ∧
        (enrollsOf (runningOf ps) = true → ∃ c, m.stackOf i = some c ∧
          let w : Scribe := ⟨c.no, s.depthLimit, s.captureReturns⟩
          (m.recordsOf i).map Record.timeless =
            w.created :: referenceOf w 0 false (runningOf ps)) := by
  intro m i hi hexclude hsettled hepoch ps hidle hjournal hwhole hheight
  have htold := told_of_spares hx hdrop hepoch hexclude
    (spares_of_crew (.new id s hasHandler) (.new id s hasHandler crew) hcrew hi hx hcall hexclude
      hsettled)
  rcases htold.nested trivial trivial (view_of_idle hidle) hjournal hwhole hheight with
    ⟨hstack, -, hnone⟩ | ⟨no, name, hstack, hrecords, hsome⟩
  · have hc := stackOf_eq_none hstack
    refine ⟨fun _ => ⟨hc, by rw [recordsOf, hc]; rfl⟩, fun h => ?_⟩
    rw [hnone] at h
    cases h
  · refine ⟨fun h => ?_, fun _ => ?_⟩
    · rw [hsome] at h
      cases h
    obtain ⟨c, hc, heq⟩ := stackOf_eq_some hstack
    have hno : c.no = no := congrArg CallStack.no heq
    refine ⟨c, hc, ?_⟩
    rw [hno]
    exact hrecords

/-- Two threads, one of which is suspended during a call of a method. -/
theorem nested_calls_are_recorded_two_threads :
    let hook (i : Nat) (h : Hook) (k : UInt16) : List Move :=
      .call ⟨i, none⟩ ⟨h, ⟨k⟩, none⟩ true :: List.replicate 5 (.advance ⟨i, none⟩)
    let xs : List Move := hook 0 .rootEntry 1 ++ .suspend :: hook 0 .methodEntry 2 ++
      hook 0 .methodExit 2 ++ .resume :: .drain :: hook 1 .markerEntry 3 ++ hook 0 .rootExit 1
    let ps : List PlacedCall :=
      [.node .root ⟨1⟩ none false false [.node .method ⟨2⟩ none true true []]]
    let m := (Machine.new (.new 0 .default false)).run xs
    let w : Scribe := ⟨⟨1⟩, Settings.default.depthLimit, Settings.default.captureReturns⟩
    [0, 1].length ≤ Settings.default.threadSlots.toNat ∧ (∀ x ∈ xs, x.isReset = false) ∧
      (∀ x ∈ xs, ∀ j ∈ x.caller?, j ∈ [0, 1]) ∧
      Machine.Along Machine.NoDrop (.new (.new 0 .default false)) xs ∧
      (∀ x ∈ xs, x.excluded? ≠ some 0) ∧
      Machine.Along (Machine.Settled 0) (.new (.new 0 .default false)) xs ∧
      Machine.Along (Machine.EpochLeft 0) (.new (.new 0 .default false)) xs ∧
      m.active 0 = [] ∧ m.journal 0 = PlacedCall.hooksOf ps ∧ PlacedCall.WholeOf false false ps ∧
      CallTree.heightOf (PlacedCall.runningOf ps) < UInt32.size ∧
      (m.recordsOf 0).map Record.timeless =
        [w.created, w.record .rootEntry ⟨1⟩ none, w.record .rootExit ⟨1⟩ none] := by
  intro hook xs ps m w
  have hslots : [0, 1].length ≤ Settings.default.threadSlots.toNat := by decide
  have hx : ∀ x ∈ xs, x.isReset = false := by decide
  have hcall : ∀ x ∈ xs, ∀ j ∈ x.caller?, j ∈ [0, 1] := by decide
  have hdrop : Machine.Along Machine.NoDrop (.new (.new 0 .default false)) xs := by decide
  have hexclude : ∀ x ∈ xs, x.excluded? ≠ some 0 := by decide
  have hsettled : Machine.Along (Machine.Settled 0) (.new (.new 0 .default false)) xs := by decide
  have hepoch : Machine.Along (Machine.EpochLeft 0) (.new (.new 0 .default false)) xs := by decide
  have hidle : m.active 0 = [] := by rfl
  have hjournal : m.journal 0 = PlacedCall.hooksOf ps := by rfl
  have hwhole : PlacedCall.WholeOf false false ps := by
    simp [ps, PlacedCall.WholeOf, PlacedCall.Whole]
  have hheight : CallTree.heightOf (PlacedCall.runningOf ps) < UInt32.size := by decide
  refine ⟨hslots, hx, hcall, hdrop, hexclude, hsettled, hepoch, hidle, hjournal, hwhole, hheight, ?_⟩
  obtain ⟨c, hc, hrecords⟩ := (nested_calls_are_recorded 0 .default false [0, 1] hslots xs hx hcall
    hdrop 0 (by decide) hexclude hsettled hepoch ps hidle hjournal hwhole hheight).2 (by decide)
  have hno : m.stackOf 0 = some ⟨⟨1⟩, none, false, 0, 0, 0⟩ := by decide
  obtain rfl := Option.some.inj (hno.symm.trans hc)
  exact hrecords

open PlacedCall CallTree Machine in
/-- Wherever tracing is suspended and resumed between the hooks of a registered thread whose calls are
nested: as long as no exit is hushed alone whose entry opens a frame, and no entry is hushed alone
whose exit finds something to close, every exit in the thread's records is of the method whose entry
is the innermost that is unmatched, and when the calls have come to their end no frame is left. -/
theorem suspension_keeps_nesting (id : Nat) (s : Settings) (hasHandler : Bool) (xs : List Move)
    (hx : ∀ x ∈ xs, x.isReset = false) (hlimit : s.depthLimit = 0xffffffff)
    (hdrop : Along NoDrop (.new (.new id s hasHandler)) xs) :
    let m := (Machine.new (.new id s hasHandler)).run xs
    ∀ i c, m.stackOf i = some c → (∀ x ∈ xs, x.excluded? ≠ some i) →
      Along (Settled i) (.new (.new id s hasHandler)) xs →
      Along (EpochLeft i) (.new (.new id s hasHandler)) xs →
      ∀ ps, m.journal i <+: hooksOf ps → WholeOf false false ps →
        heightOf (runningOf ps) < UInt32.size →
        unmatched [] (m.recordsOf i) ≠ none ∧
        (m.journal i = hooksOf ps → m.active i = [] → c.depth = 0 ∧ c.inGraph = false) := by
  intro m i c hc hexclude hsettled hepoch ps hjournal hwhole hheight
  obtain ⟨slot, hslot, -⟩ := Roster.Sound.slot?_of_stackOf hc
  have htold := told_of_spares hx hdrop hepoch hexclude
    (spares_of_registered (.new id s hasHandler) hslot hx hexclude hsettled)
  refine ⟨?_, fun hall hidle => ?_⟩
  · obtain ⟨pre, done, no, name, hpre, hdone, hrecords⟩ := htold.records trivial trivial
    rw [← unmatched_map_timeless, ← records_view, hrecords, unmatched_append,
      unmatched_of_created hpre, Option.bind_some]
    -- what has been written so far is the beginning of the reference
    obtain ⟨rest, hrest⟩ := hdone.trans (heard_mono hjournal)
    have hfollow := Scribe.follow_hooksOf_new ⟨no, s.depthLimit, s.captureReturns⟩ no name hwhole
      hheight
    rw [← hrest, Scribe.follow_append] at hfollow
    refine unmatched_ne_none_of_prefix ⟨_, congrArg Prod.snd hfollow⟩ ?_
    rw [unmatched_referenceOf hlimit [] 0 false _ (by simpa using hheight)]
    simp
  · have hj : (m.view i).journal = hooksOf ps := hall
    rcases htold.idle trivial trivial (view_of_idle hidle) with
      ⟨hstack, -, -⟩ | ⟨no, name, hstack, -, -⟩
    · rw [stackOf_eq_none hstack] at hc
      cases hc
    · rw [hj, Scribe.follow_hooksOf_new _ no name hwhole hheight] at hstack
      obtain ⟨c', hc', heq⟩ := stackOf_eq_some hstack
      obtain rfl := Option.some.inj (hc.symm.trans hc')
      have hdepth : c.depth = 0 := congrArg CallStack.depth heq
      have hgraph : c.inGraph = false := congrArg CallStack.inGraph heq
      exact ⟨hdepth, hgraph⟩

/-- A suspension begins in a method that opens no frame and ends behind a root that is hushed whole. -/
theorem suspension_keeps_nesting_marker :
    let hook (h : Hook) (k : UInt16) : List Move :=
      .call ⟨0, none⟩ ⟨h, ⟨k⟩, none⟩ true :: List.replicate 5 (.advance ⟨0, none⟩)
    let xs : List Move := hook .markerEntry 1 ++ hook .methodEntry 2 ++ .suspend ::
      hook .methodExit 2 ++ hook .rootEntry 3 ++ hook .rootExit 3 ++ .resume :: hook .markerExit 1
    let ps : List PlacedCall := [.node .marker ⟨1⟩ none false false
      [.node .method ⟨2⟩ none false true [], .node .root ⟨3⟩ none true true []]]
    let m := (Machine.new (.new 0 .default false)).run xs
    (∀ x ∈ xs, x.isReset = false) ∧ Settings.default.depthLimit = 0xffffffff ∧
      Machine.Along Machine.NoDrop (.new (.new 0 .default false)) xs ∧
      (∀ x ∈ xs, x.excluded? ≠ some 0) ∧
      Machine.Along (Machine.Settled 0) (.new (.new 0 .default false)) xs ∧
      Machine.Along (Machine.EpochLeft 0) (.new (.new 0 .default false)) xs ∧
      m.journal 0 <+: PlacedCall.hooksOf ps ∧ PlacedCall.WholeOf false false ps ∧
      CallTree.heightOf (PlacedCall.runningOf ps) < UInt32.size ∧
      m.journal 0 = PlacedCall.hooksOf ps ∧ m.active 0 = [] ∧
      ∃ c, m.stackOf 0 = some c ∧ unmatched [] (m.recordsOf 0) ≠ none ∧ c.depth = 0 ∧
        c.inGraph = false := by
  intro hook xs ps m
  have hx : ∀ x ∈ xs, x.isReset = false := by decide
  have hdrop : Machine.Along Machine.NoDrop (.new (.new 0 .default false)) xs := by decide
  have hexclude : ∀ x ∈ xs, x.excluded? ≠ some 0 := by decide
  have hsettled : Machine.Along (Machine.Settled 0) (.new (.new 0 .default false)) xs := by decide
  have hepoch : Machine.Along (Machine.EpochLeft 0) (.new (.new 0 .default false)) xs := by decide
  have hidle : m.active 0 = [] := by rfl
  have hall : m.journal 0 = PlacedCall.hooksOf ps := by rfl
  have hjournal : m.journal 0 <+: PlacedCall.hooksOf ps := hall ▸ List.prefix_rfl
  have hwhole : PlacedCall.WholeOf false false ps := by
    simp [ps, PlacedCall.WholeOf, PlacedCall.Whole, Family.kinds, Family.below]
  have hheight : CallTree.heightOf (PlacedCall.runningOf ps) < UInt32.size := by decide
  have hc : m.stackOf 0 = some ⟨⟨1⟩, none, false, 0, 0, 0⟩ := by decide
  obtain ⟨hmatched, hend⟩ := suspension_keeps_nesting 0 .default false xs hx rfl hdrop 0 _ hc hexclude
    hsettled hepoch ps hjournal hwhole hheight
  exact ⟨hx, rfl, hdrop, hexclude, hsettled, hepoch, hjournal, hwhole, hheight, hall, hidle, _, hc,
    hmatched, hend hall hidle⟩

/-- The exit of a marker is hushed alone, and its frame stays when the call has returned and tracing
is resumed. The entry of a method is hushed alone, and its exit is written where the root's exit is
missing. -/
theorem suspension_in_a_call_loses_nesting :
    let hook (h : Hook) (k : UInt16) : List Move :=
      .call ⟨0, none⟩ ⟨h, ⟨k⟩, none⟩ true :: List.replicate 5 (.advance ⟨0, none⟩)
    let xs : List Move := hook .markerEntry 9 ++ .suspend :: hook .markerExit 9 ++ [.resume]
    let ys : List Move := hook .rootEntry 1 ++ .suspend :: hook .methodEntry 2 ++
      .resume :: hook .methodExit 2 ++ hook .rootExit 1
    let m := (Machine.new (.new 0 .default false)).run xs
    let n := (Machine.new (.new 0 .default false)).run ys
    Settings.default.depthLimit = 0xffffffff ∧
    ((∀ x ∈ xs, x.isReset = false ∧ x.excluded? = none) ∧
      Machine.Along Machine.NoDrop (.new (.new 0 .default false)) xs ∧
      Machine.Along (Machine.Settled 0) (.new (.new 0 .default false)) xs ∧
      m.journal 0 = PlacedCall.hooksOf [.node .marker ⟨9⟩ none false true []] ∧
      m.active 0 = [] ∧ m.tracer.suspension.suspended = false ∧
      ∃ c, m.stackOf 0 = some c ∧ c.depth = 1 ∧ c.inGraph = true) ∧
    ((∀ x ∈ ys, x.isReset = false ∧ x.excluded? = none) ∧
      Machine.Along Machine.NoDrop (.new (.new 0 .default false)) ys ∧
      Machine.Along (Machine.Settled 0) (.new (.new 0 .default false)) ys ∧
      n.journal 0 = PlacedCall.hooksOf
        [.node .root ⟨1⟩ none false false [.node .method ⟨2⟩ none true false []]] ∧
      n.active 0 = [] ∧ n.tracer.suspension.suspended = false ∧ (∃ c, n.stackOf 0 = some c) ∧
      unmatched [] (n.recordsOf 0) = none) := by
  intro hook xs ys m n
  have hm : m.stackOf 0 = some ⟨⟨1⟩, none, true, 1, 0, 0⟩ := by decide
  have hn : n.stackOf 0 = some ⟨⟨1⟩, none, false, 0, 0, 0⟩ := by decide
  refine ⟨rfl, ⟨by decide, by decide, by decide, by rfl, by rfl, by rfl, _, hm, rfl, rfl⟩, ?_⟩
  exact ⟨by decide, by decide, by decide, by rfl, by rfl, by rfl, ⟨_, hn⟩, by decide⟩

end MethodTrace
