import Mathlib.Data.List.Chain
import MethodTrace.Proofs.Chronicle

/-!
# While tracing is suspended

Suspensions and their ends alternate in what has been written, and the last of them tells whether
tracing is suspended (`Alternates`). What is written in between has been written by calls that were
in progress when tracing was suspended (`Within`). Both hold along all runs: nothing that happens
while tracing is suspended can begin a call, and resets keep the seal.
-/

namespace MethodTrace

/-! ### Markers -/

/-- The markers in their order: whether they tell of a suspension or of its end. -/
def markersOf (rs : List Record) : List Bool :=
  (rs.filter Record.isMarker).map (·.isOf .threadsSuspended)

theorem markersOf_append (rs rs' : List Record) :
    markersOf (rs ++ rs') = markersOf rs ++ markersOf rs' := by
  simp [markersOf]

theorem markersOf_of_unmarked {rs : List Record} (h : ∀ r ∈ rs, r.isMarker = false) :
    markersOf rs = [] := by
  have : rs.filter Record.isMarker = [] := List.filter_eq_nil_iff.mpr fun r hr => by simp [h r hr]
  rw [markersOf, this, List.map_nil]

/-- Suspensions and their ends, after which tracing is suspended or not. -/
structure Alternates (bs : List Bool) (suspended : Bool) : Prop where
  chain : bs.IsChain (· ≠ ·)
  head : bs.head? ≠ some false
  last : bs.getLast?.getD false = suspended

theorem Alternates.concat {bs : List Bool} {b : Bool} (h : Alternates bs !b) :
    Alternates (bs ++ [b]) b where
  chain := by
    rw [List.isChain_append]
    refine ⟨h.chain, .singleton b, fun x hx y hy => ?_⟩
    have hlast := h.last
    rw [Option.mem_def.mp hx, Option.getD_some] at hlast
    obtain rfl : b = y := by simpa using hy
    rw [hlast]
    simp
  head := by
    have hlast := h.last
    cases bs with
    | nil => cases b <;> simp_all
    | cons x bs => simpa using h.head
  last := by simp

/-- A suspension that is in force was the last to be told of. -/
theorem Alternates.getLast?_eq {bs : List Bool} {b : Bool} (h : Alternates bs b) :
    bs.getLast? = some true ↔ b = true := by
  rw [← h.last]
  cases bs.getLast? <;> simp

theorem Machine.Steady.alternates_step {m : Machine} (h : m.Steady)
    (ha : Alternates (markersOf m.history) m.tracer.suspension.suspended) (x : Move) :
    Alternates (markersOf (m.step x).history) (m.step x).tracer.suspension.suspended := by
  rw [h.history_step, markersOf_append]
  have hflow := h.flow x
  generalize m.step x = m', m.news x = news at hflow
  cases hflow with
  | quiet _ hw | advance _ hw =>
    rwa [markersOf_of_unmarked hw.posts.unmarked, List.append_nil, hw.suspension]
  | suspend hs => rw [hs] at ha; exact ha.concat
  | resume hs => rw [hs] at ha; exact ha.concat
  | reset | drain => rwa [markersOf_of_unmarked (List.forall_mem_nil _), List.append_nil]

theorem Machine.Steady.alternates_run {m : Machine} (h : m.Steady)
    (ha : Alternates (markersOf m.history) m.tracer.suspension.suspended) (xs : List Move) :
    Alternates (markersOf (m.run xs).history) (m.run xs).tracer.suspension.suspended := by
  induction xs generalizing m with
  | nil => exact ha
  | cons x xs ih => exact ih (h.step x) (h.alternates_step ha x)

/-! ### What is written in between -/

namespace Entry

def opens (e : Entry) : Bool := e.record.isOf .threadsSuspended

def ends (e : Entry) : Bool := e.record.isOf .threadsResumed

/-- Whether a call has written `x` that was in progress when `e` was written. -/
def Foresaw (e x : Entry) : Prop := ∃ i, ∃ t ∈ e.begun i, x.writer = .hook i t

/-- The marker of the suspension in force after `x`. -/
def after (x : Entry) : Option Entry → Option Entry
  | some e => if x.ends then none else some e
  | none => if x.opens then some x else none

end Entry

/-- The marker of the suspension in force after all that has been written. -/
def standing (e? : Option Entry) (xs : List Entry) : Option Entry :=
  xs.foldl (fun e? x => x.after e?) e?

/-- Only calls write that were in progress, as long as a suspension is in force. -/
def Within : Option Entry → List Entry → Prop
  | _, [] => True
  | e?, x :: xs => (∀ e ∈ e?, x.ends = true ∨ e.Foresaw x) ∧ Within (x.after e?) xs

theorem within_append {e? : Option Entry} {xs ys : List Entry} :
    Within e? (xs ++ ys) ↔ Within e? xs ∧ Within (standing e? xs) ys := by
  induction xs generalizing e? with
  | nil => simp [Within, standing]
  | cons x xs ih => simp only [List.cons_append, Within, ih, and_assoc, standing, List.foldl_cons]

theorem standing_append (e? : Option Entry) (xs ys : List Entry) :
    standing e? (xs ++ ys) = standing (standing e? xs) ys :=
  List.foldl_append

/-- Entries that are no markers change nothing. -/
theorem standing_of_unmarked {e? : Option Entry} {xs : List Entry}
    (h : ∀ x ∈ xs, x.record.isMarker = false) : standing e? xs = e? := by
  induction xs with
  | nil => rfl
  | cons x xs ih =>
    have hx : x.opens = false ∧ x.ends = false := by
      simpa [Record.isMarker, Entry.opens, Entry.ends] using h x List.mem_cons_self
    have hafter : x.after e? = e? := by cases e? <;> simp [Entry.after, hx]
    rw [standing, List.foldl_cons, hafter]
    exact ih fun y hy => h y (List.mem_cons_of_mem _ hy)

theorem within_of_unmarked {e? : Option Entry} {xs : List Entry}
    (h : ∀ x ∈ xs, x.record.isMarker = false) (hw : ∀ e ∈ e?, ∀ x ∈ xs, e.Foresaw x) :
    Within e? xs := by
  induction xs with
  | nil => trivial
  | cons x xs ih =>
    have hafter : standing e? [x] = e? := standing_of_unmarked fun y hy => by
      rw [List.mem_singleton.mp hy]
      exact h x List.mem_cons_self
    change x.after e? = e? at hafter
    refine ⟨fun e he => .inr (hw e he x List.mem_cons_self), ?_⟩
    rw [hafter]
    exact ih (fun y hy => h y (List.mem_cons_of_mem _ hy))
      fun e he y hy => hw e he y (List.mem_cons_of_mem _ hy)

/-- Up to the end of a suspension all has been written by calls that were in progress. -/
theorem Within.foresaw {e : Entry} {xs : List Entry} (h : Within (some e) xs)
    (hends : ∀ x ∈ xs, x.ends = false) : ∀ x ∈ xs, e.Foresaw x := by
  induction xs with
  | nil => exact List.forall_mem_nil _
  | cons x xs ih =>
    obtain ⟨hx, hxs⟩ := h
    have hx' := hends x List.mem_cons_self
    rw [Entry.after, hx', if_neg Bool.false_ne_true] at hxs
    refine List.forall_mem_cons.mpr ⟨(hx e rfl).resolve_left (by simp [hx']), ?_⟩
    exact ih hxs fun y hy => hends y (List.mem_cons_of_mem _ hy)

/-- What can be told from all that has been written, when calls are in progress that began at the
given moments: while tracing is suspended, no others than those that were in progress before. -/
structure Windowed (xs : List Entry) (suspended : Bool) (begun : Nat → List Nat) : Prop where
  within : Within none xs
  running : standing none xs = none → suspended = false
  suspended : ∀ e, standing none xs = some e → suspended = true ∧ ∀ i, begun i ⊆ e.begun i

namespace Windowed
variable {xs ys : List Entry} {x : Entry} {b : Bool} {begun begun' : Nat → List Nat}

/-- Calls write, begin and return. -/
theorem append (h : Windowed xs b begun) (hys : ∀ y ∈ ys, y.record.isMarker = false)
    (hwriter : ∀ y ∈ ys, ∃ i, ∃ t ∈ begun i, y.writer = .hook i t)
    (hbegun : b = true → ∀ i, begun' i ⊆ begun i) : Windowed (xs ++ ys) b begun' := by
  have hstanding : standing none (xs ++ ys) = standing none xs := by
    rw [standing_append, standing_of_unmarked hys]
  refine ⟨within_append.mpr ⟨h.within, within_of_unmarked hys fun e he y hy => ?_⟩, ?_, ?_⟩
  · obtain ⟨i, t, ht, hyt⟩ := hwriter y hy
    exact ⟨i, t, (h.suspended e he).2 i ht, hyt⟩
  · rw [hstanding]
    exact h.running
  · intro e he
    rw [hstanding] at he
    obtain ⟨hb, hsub⟩ := h.suspended e he
    exact ⟨hb, fun i => List.Subset.trans (hbegun hb i) (hsub i)⟩

theorem standing_eq_none (h : Windowed xs false begun) : standing none xs = none := by
  rcases hs : standing none xs with _ | e
  · rfl
  · cases (h.suspended e hs).1

theorem suspend (h : Windowed xs false begun) (hx : x.opens = true)
    (hbegun : ∀ i, begun' i ⊆ x.begun i) : Windowed (xs ++ [x]) true begun' := by
  have hstanding : standing none (xs ++ [x]) = some x := by
    rw [standing_append, h.standing_eq_none]
    simp [standing, Entry.after, hx]
  refine ⟨within_append.mpr ⟨h.within, ?_, trivial⟩, ?_, ?_⟩
  · rw [h.standing_eq_none]
    exact fun e he => nomatch he
  · rw [hstanding]
    exact fun he => nomatch he
  · rw [hstanding]
    intro e he
    cases he
    exact ⟨rfl, hbegun⟩

theorem resume (h : Windowed xs true begun) (hx : x.ends = true) :
    Windowed (xs ++ [x]) false begun' := by
  have hstanding : standing none (xs ++ [x]) = none := by
    rcases hs : standing none xs with _ | e
    · cases h.running hs
    · rw [standing_append, hs]
      simp [standing, Entry.after, hx]
  refine ⟨within_append.mpr ⟨h.within, fun _ _ => .inl hx, trivial⟩, fun _ => rfl, ?_⟩
  rw [hstanding]
  exact fun e he => nomatch he

end Windowed

namespace Chronicle
variable {h : Chronicle}

/-- What can be told from a chronicle. -/
def Windowed (h : Chronicle) : Prop :=
  MethodTrace.Windowed h.entries h.machine.tracer.suspension.suspended h.begun

/-- While tracing is suspended no call begins. -/
theorem begun_step_subset (hf : h.Faithful) (hs : h.machine.tracer.suspension.suspended = true)
    (x : Move) (i : Nat) : (h.step x).begun i ⊆ h.begun i := by
  refine timed_subset ?_
  have hcalls := h.machine.calls_step x
  generalize h.machine.step x = m' at hcalls
  rw [hf.begun i]
  cases hcalls with
  | same heq => rw [heq]
  | @call who c counted l stage _ hgoes heq =>
    have hreturned : ∃ result, stage = .returned result := by
      cases hgoes with
      | suspended => exact ⟨_, rfl⟩
      | start hopen => rw [(Suspension.openEpoch_eq_some_iff.mp hopen).1] at hs; cases hs
    obtain ⟨result, rfl⟩ := hreturned
    rw [heq, Function.update_apply]
    split
    · rename_i hi; rw [hi]; exact Nat.le_refl _
    · exact Nat.le_refl _
  | @advance who a rest l stage _ hact _ heq =>
    rw [heq, Function.update_apply]
    split
    · rename_i hi
      rw [hi, hact]
      cases stage <;> simp [Activity.next]
    · exact Nat.le_refl _

theorem begun_step_of_same (hf : h.Faithful) {x : Move}
    (ha : (h.machine.step x).active = h.machine.active) : (h.step x).begun = h.begun := by
  funext i
  simp only [step, ha, ← hf.begun i, timed_self]

theorem Windowed.step (hw : h.Windowed) (hf : h.Faithful) (x : Move) : (h.step x).Windowed := by
  have hbegun := fun hs => begun_step_subset hf hs x
  have hactive : (h.machine.step x).active = h.machine.active → (h.step x).begun = h.begun :=
    begun_step_of_same hf
  have hflow := hf.steady.flow x
  have hentries : (h.step x).entries = h.entries ++
    (h.machine.news x).map fun r => ⟨r, h.writer x, h.moment, h.machine, h.begun⟩ := rfl
  have hmachine : (h.step x).machine = h.machine.step x := rfl
  rw [Windowed, hentries, hmachine]
  rw [Windowed] at hw
  generalize (h.step x).begun = begun at hbegun hactive ⊢
  generalize h.machine.step x = m', h.machine.news x = news at hflow hactive ⊢
  cases hflow with
  | quiet _ hwrote =>
    rw [hwrote.suspension]
    exact hw.append (List.forall_mem_nil _) (List.forall_mem_nil _) hbegun
  | advance hact hwrote =>
    obtain ⟨t, begun', ht⟩ := hf.exists_begun hact
    rw [hwrote.suspension]
    refine hw.append (fun y hy => ?_) (fun y hy => ?_) hbegun
    · obtain ⟨r, hr, rfl⟩ := List.mem_map.mp hy
      exact hwrote.posts.unmarked r hr
    · obtain ⟨r, hr, rfl⟩ := List.mem_map.mp hy
      exact ⟨_, t, by rw [ht]; exact List.mem_cons_self, Faithful.writer_advance ht⟩
  | suspend hs =>
    rw [hs] at hw
    exact hw.suspend rfl fun i => by rw [hactive rfl]; exact List.Subset.refl _
  | resume hs =>
    rw [hs] at hw
    exact hw.resume rfl
  | reset | drain =>
    exact hw.append (List.forall_mem_nil _) (List.forall_mem_nil _) hbegun

theorem Windowed.run (hw : h.Windowed) (hf : h.Faithful) (xs : List Move) :
    (h.run xs).Windowed := by
  induction xs generalizing h with
  | nil => exact hw
  | cons x xs ih => exact ih (hw.step hf x) (hf.step x)

theorem Windowed.new (id : Nat) (s : Settings) (hasHandler : Bool) :
    (Chronicle.new (.new id s hasHandler)).Windowed :=
  ⟨trivial, fun _ => rfl, fun _ he => nomatch he⟩

/-- What follows the marker of a suspension, up to its end. -/
theorem Windowed.foresaw (hw : h.Windowed) (hf : h.Faithful) {a b d : List Entry} {e : Entry}
    (heq : h.entries = a ++ e :: (b ++ d)) (he : e.opens = true) (hb : ∀ x ∈ b, x.ends = false) :
    ∀ x ∈ b, e.Foresaw x := by
  have hmem : e ∈ h.entries := by rw [heq]; simp
  have hwithin : Within (standing none a) (e :: (b ++ d)) :=
    (within_append.mp (heq ▸ hw.within)).2
  have hends : e.ends = false := Record.isOf_eq he _
  -- no suspension was in force: its marker would have been written by a call
  have hnone : standing none a = none := by
    rcases hs : standing none a with _ | e'
    · rfl
    · rw [hs] at hwithin
      obtain ⟨i, t, -, hwriter⟩ := (hwithin.1 e' rfl).resolve_left (by simp [hends])
      have hmarker : e.record.isMarker = true := by rw [Record.isMarker, ← Entry.opens, he]; rfl
      rw [hf.writer e hmem hmarker] at hwriter
      cases hwriter
  rw [hnone] at hwithin
  have hafter : e.after none = some e := by simp [Entry.after, he]
  have hbd := hwithin.2
  rw [hafter] at hbd
  exact (within_append.mp hbd).1.foresaw hb

end Chronicle

/-- Whatever threads do, and also when all is suspended, resumed and reset while first invocations
are told: suspensions and their ends alternate in what has been written, the last of them tells
whether tracing is suspended, and the queue is sealed just as long, at the epoch of the suspension,
which counts the suspensions. Between a suspension and its end only calls write that had begun
before, so nothing is written if none was in progress. -/
theorem suspension_window (id : Nat) (s : Settings) (hasHandler : Bool) (xs : List Move) :
    let h := (Chronicle.new (.new id s hasHandler)).run xs
    let m := (Machine.new (.new id s hasHandler)).run xs
    (h.machine = m ∧ h.entries.map Entry.record = m.history) ∧
    ((markersOf m.history).IsChain (· ≠ ·) ∧ (markersOf m.history).head? ≠ some false ∧
      ((markersOf m.history).getLast? = some true ↔ m.tracer.suspension.suspended = true)) ∧
    (m.tracer.queue.isClosed = m.tracer.suspension.suspended ∧
      m.tracer.queue.closedFrom =
        (if m.tracer.suspension.suspended then some m.tracer.suspension.epoch else none) ∧
      m.tracer.suspension.epoch = .ofNat m.suspensions) ∧
    ∀ a e b d, h.entries = a ++ e :: (b ++ d) → e.record.isOf .threadsSuspended = true →
      (∀ x ∈ b, x.record.isOf .threadsResumed = false) →
      (∀ x ∈ b, ∃ i, ∃ t ∈ e.begun i, x.writer = .hook i t ∧ t < e.moment) ∧
      ((∀ i, e.state.active i = []) → b = []) := by
  intro h m
  have hnew := Chronicle.Faithful.new id s hasHandler
  have hf : h.Faithful := hnew.run xs
  have hw : h.Windowed := (Chronicle.Windowed.new id s hasHandler).run hnew xs
  have hm : h.machine = m := Chronicle.run_machine _ xs
  have hsteady : m.Steady := (Machine.Steady.new id s hasHandler).run xs
  have halternates := (Machine.Steady.new id s hasHandler).alternates_run
    ⟨.nil, by simp [markersOf, Machine.new, Machine.history, Tracer.new, Queue.new], rfl⟩ xs
  refine ⟨⟨hm, hm ▸ hf.history⟩, ⟨halternates.chain, halternates.head, halternates.getLast?_eq⟩,
    ⟨hsteady.isClosed, hsteady.closedFrom, hsteady.epoch⟩,
    fun a e b d heq he hb => ?_⟩
  have hmem : e ∈ h.entries := by rw [heq]; simp
  have hforesaw := hw.foresaw hf heq he hb
  refine ⟨fun x hx => ?_, fun hidle => List.eq_nil_iff_forall_not_mem.mpr fun x hx => ?_⟩
  · obtain ⟨i, t, ht, hwriter⟩ := hforesaw x hx
    exact ⟨i, t, ht, hwriter, (hf.entry e hmem i).2 t ht⟩
  · obtain ⟨i, t, ht, -⟩ := hforesaw x hx
    have hlength := (hf.entry e hmem i).1
    rw [hidle i, List.length_nil, List.length_eq_zero_iff] at hlength
    rw [hlength] at ht
    cases ht

/-- A marker's entry holds its guard when all is suspended, and writes two records behind the
marker of the suspension. -/
theorem suspension_window_entry :
    let who : OsThread := ⟨0, none⟩
    let xs : List Move := .call who ⟨.markerEntry, ⟨1⟩, none⟩ true ::
      List.replicate 3 (.advance who) ++ .suspend :: List.replicate 2 (.advance who) ++
      [.resume, .suspend]
    let h := (Chronicle.new (.new 0 .default false)).run xs
    ∃ e b d, h.entries = [] ++ e :: (b ++ d) ∧ e.record.isOf .threadsSuspended = true ∧
      (∀ x ∈ b, x.record.isOf .threadsResumed = false) ∧ b.length = 2 ∧ d.length = 2 ∧
      ∀ x ∈ b, ∃ i, ∃ t ∈ e.begun i, x.writer = .hook i t ∧ t < e.moment := by
  intro who xs h
  have hopens : h.entries.map (·.record.isOf .threadsSuspended) =
    [true, false, false, false, true] := by decide +kernel
  have hends : h.entries.map (·.record.isOf .threadsResumed) =
    [false, false, false, true, false] := by decide +kernel
  obtain ⟨-, -, -, hwritten⟩ := suspension_window 0 .default false xs
  have hwritten := hwritten []
  change ∀ e b d, h.entries = _ → _ at hwritten
  generalize h.entries = entries at hopens hends hwritten ⊢
  obtain _ | ⟨e, _ | ⟨x, _ | ⟨y, d⟩⟩⟩ := entries <;> simp only [List.map_cons, List.map_nil,
    List.cons.injEq, reduceCtorEq, and_false] at hopens hends
  have hb : ∀ z ∈ [x, y], z.record.isOf .threadsResumed = false := by simp [hends]
  have hd : d.length = 2 := by simpa using congrArg List.length hopens.2.2.2
  exact ⟨e, [x, y], d, rfl, hopens.1, hb, rfl, hd, (hwritten e [x, y] d rfl hopens.1 hb).1⟩

end MethodTrace
