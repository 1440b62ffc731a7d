import MethodTrace.Proofs.Alone
import MethodTrace.Proofs.Echo

/-!
# Threads do not interfere

If other threads call no hooks a thread notices no difference (`threads_do_not_interfere`). That it
fares as it does on its own presumes that nothing is dropped; so it has to be shown first that the queue
drops nothing from a run that is left of one from which it drops nothing (`Thinned.noDrop`). It is never
longer there, and whether it drops what a call writes depends on its length alone (`Call.act_dropped`).
-/

namespace MethodTrace

/-! ### What is dropped -/

namespace Queue
variable (q : Queue) (e : UInt64) (r : Record)

/-- Only a full queue drops records. -/
theorem append_dropped : (q.append e r).dropped = q.dropped ↔
    q.keepsOut e = true ∨ q.size < q.capacity := by
  cases hk : q.keepsOut e with
  | true => simp [append, verdict, hk]
  | false =>
    by_cases hfull : q.capacity ≤ q.size
    · simp [append, verdict, hk, hfull, drop]
    · simp [append, verdict, hk, hfull, push, Nat.lt_of_not_le hfull]

end Queue

namespace Tracer
variable {t : Tracer} {epoch : UInt64} {slot : Slot} {s : CallStack}

theorem frame_dropped (t : Tracer) (epoch : UInt64) (slot : Slot) (s : CallStack) (d : UInt32)
    (k : Kind) (m : MethodId) (ret : Option ReturnValue) :
    (t.frame epoch slot s d k m ret).queue.dropped = t.queue.dropped ↔
      t.queue.keepsOut epoch = true ∨ (t.scribe s.no).frame d.toNat k m ret = [] ∨
        t.queue.size < t.queue.capacity := by
  have hdepth : (t.modifyStack slot fun _ => s).recordsDepth d =
      decide (d.toNat ≤ (t.scribe s.no).limit.toNat) := by
    rw [recordsDepth, modifyStack]
    exact decide_eq_decide.mpr UInt32.le_iff_toNat_le
  unfold frame Scribe.frame
  dsimp only
  rw [hdepth]
  by_cases hd : d.toNat ≤ (t.scribe s.no).limit.toNat
  · simp only [hd, decide_true, ↓reduceIte, reduceCtorEq, false_or]
    exact Queue.append_dropped ..
  · simp only [hd, decide_false, ↓reduceIte, Bool.false_eq_true, true_or, or_true, iff_true]
    rfl

theorem frame_capacity (t : Tracer) (epoch : UInt64) (slot : Slot) (s : CallStack) (d : UInt32)
    (k : Kind) (m : MethodId) (ret : Option ReturnValue) :
    (t.frame epoch slot s d k m ret).queue.capacity = t.queue.capacity := by
  unfold frame
  dsimp only
  split
  · exact Queue.append_capacity ..
  · rfl

end Tracer

namespace Call
variable {c : Call} {t : Tracer} {epoch : UInt64} {slot : Slot} {s : CallStack} {fresh : Bool}

@[simp] theorem greet_capacity : (c.greet t epoch s fresh).queue.capacity = t.queue.capacity := by
  unfold greet
  split
  · split <;> simp [Tracer.notify, Tracer.writeCreated]
  · rfl

theorem enter_capacity (c : Call) (t : Tracer) (epoch : UInt64) (slot : Slot) (o : Opening) :
    (c.enter t epoch slot o).queue.capacity = t.queue.capacity := by
  rcases h : t.roster.stack? slot with _ | s
  · simp only [enter, h]
  · rw [enter_eq h, Tracer.frame_capacity]

theorem act_capacity (c : Call) (t : Tracer) (epoch : UInt64) (slot : Slot) (fresh : Bool) :
    (c.act t epoch slot fresh).1.queue.capacity = t.queue.capacity := by
  rcases h : t.roster.stack? slot with _ | s
  · simp only [act, h]
  rw [act_eq h]
  split
  · dsimp only
    split
    · unfold invoke
      split
      · exact greet_capacity
      · rw [enter_capacity]
        exact greet_capacity
    · rw [enter_capacity]
      exact greet_capacity
  · split
    · rw [exit_eq h, Tracer.frame_capacity]
    · exact greet_capacity

theorem Goes.capacity {who : OsThread} {l l' : Local} {stage stage' : Stage}
    (h : c.Goes who l stage l' stage') : l'.tracer.queue.capacity = l.tracer.queue.capacity := by
  cases h with
  | act => exact act_capacity ..
  | tell => exact enter_capacity ..
  | _ => rfl

theorem greet_size (hk : t.queue.keepsOut epoch = false) :
    (c.greet t epoch s fresh).queue.size =
      t.queue.size + (c.greeting (t.scribe s.no) fresh).length := by
  have hwritten : (c.greet t epoch s fresh).written =
      t.written ++ c.greeting (t.scribe s.no) fresh := greet_written hk
  simpa [Tracer.written, Queue.size] using congrArg List.length hwritten

/-- The record of a frame is dropped if the queue is full once the thread has been announced. -/
theorem act_dropped (c : Call) (epoch : UInt64) (fresh : Bool) (hhandler : t.hasHandler = false)
    (hs : t.roster.stack? slot = some s) :
    (c.act t epoch slot fresh).1.queue.dropped = t.queue.dropped ↔
      t.queue.keepsOut epoch = true ∨ (c.deed (t.scribe s.no) s).2 = [] ∨
        t.queue.size + (c.greeting (t.scribe s.no) fresh).length < t.queue.capacity := by
  have htouches : Tracer.Touches slot epoch t (c.greet t epoch s fresh) := greet_touches hs
  have hkeeps : (c.greet t epoch s fresh).queue.keepsOut epoch = t.queue.keepsOut epoch :=
    Queue.keepsOut_congr htouches.closedFrom
  -- the frame is opened once the thread has been announced
  have henter : ∀ (o : Opening) (t' : Tracer), c.hook.opening? s = some o →
      t'.roster.stack? slot = some (o.prepare s) → t'.queue = (c.greet t epoch s fresh).queue →
      t'.scribe s.no = t.scribe s.no →
      ((c.enter t' epoch slot o).queue.dropped = t.queue.dropped ↔
        t.queue.keepsOut epoch = true ∨ (c.deed (t.scribe s.no) s).2 = [] ∨
          t.queue.size + (c.greeting (t.scribe s.no) fresh).length < t.queue.capacity) := by
    intro o t' ho hs' hqueue hscribe
    have hdropped : t'.queue.dropped = t.queue.dropped := by rw [hqueue, greet_dropped]
    rw [enter_eq hs', ← hdropped, Tracer.frame_dropped, hqueue, hkeeps, greet_capacity,
      Opening.push_no, Opening.prepare_no, hscribe]
    simp only [deed, ho]
    cases hk : t.queue.keepsOut epoch with
    | true => simp only [true_or]
    | false => rw [greet_size hk]
  rw [act_eq hs]
  split
  · rename_i o ho
    have hprepared : ((c.greet t epoch s fresh).modifyStack slot
        fun _ => o.prepare s).roster.stack? slot = some (o.prepare s) := by
      simp [Tracer.modifyStack, Roster.stack?_modify_self, hs]
    have hscribe : (c.greet t epoch s fresh).scribe s.no = t.scribe s.no := by
      simp only [Tracer.scribe, htouches.depthLimit, htouches.captureReturns]
    dsimp only
    split
    · have hexpands : ((c.greet t epoch s fresh).modifyStack slot
          fun _ => o.prepare s).expands c.method = false := by
        have hgreet : (c.greet t epoch s fresh).hasHandler = false :=
          htouches.hasHandler.trans hhandler
        simp [Tracer.expands, Tracer.modifyStack, hgreet]
      rw [invoke, hexpands]
      exact henter o _ ho hprepared rfl hscribe
    · exact henter o _ ho hprepared rfl hscribe
  · rename_i ho
    cases hexit : c.hook.isExit with
    | true =>
      simp only [↓reduceIte, exit_eq hs, Tracer.frame_dropped, deed, ho, hexit,
        greeting_of_isExit hexit, Hook.pop_no, List.length_nil, Nat.add_zero]
    | false => simp [deed, ho, hexit]

end Call

/-- Whether a queue of that size takes in what the thread's call writes with its next step. -/
def Lone.Fits (v : Lone) (size capacity : Nat) : Prop :=
  ∀ c counted epoch slot fresh s, v.calls = [⟨c, counted, .guarding epoch slot fresh⟩] →
    v.stack = some s → v.sealedTo epoch = true ∨ (c.deed v.scribe s).2 = [] ∨
      size + (c.greeting v.scribe fresh).length < capacity

theorem Lone.Fits.mono {v : Lone} {size size' capacity : Nat} (h : v.Fits size capacity)
    (hsize : size' ≤ size) : v.Fits size' capacity := by
  intro c counted epoch slot fresh s hcalls hstack
  rcases h c counted epoch slot fresh s hcalls hstack with hsealed | hnothing | hroom
  · exact .inl hsealed
  · exact .inr (.inl hnothing)
  · exact .inr (.inr (by omega))

/-- Whether a move stays if the other threads call no hooks. -/
def Move.stays (i : Nat) (x : Move) : Bool := x.mover?.all (· = i)

namespace Machine
variable {m m' : Machine} {limit : UInt32} {i : Nat} {x : Move} {crew : List Nat}

/-- Whether a step of a call is dropped depends on nothing but the thread and the length of the
queue. -/
theorem Roomy.dropped_advance (h : Roomy crew limit m) (who : OsThread) :
    (m.step (.advance who)).tracer.queue.dropped = m.tracer.queue.dropped ↔
      (m.lone who.id).Fits m.tracer.queue.size m.tracer.queue.capacity := by
  rcases hact : m.active who.id with _ | ⟨a, rest⟩
  · have hcalls : (m.lone who.id).calls = [] := by rw [lone, hact]; rfl
    have hstep : m.step (.advance who) = m := advance_of_idle hact
    rw [hstep]
    refine ⟨fun _ c counted epoch slot fresh s hcall => ?_, fun _ => rfl⟩
    rw [hcalls] at hcall
    cases hcall
  obtain rfl := h.untold.rest_eq_nil h.orderly hact
  have ha : a ∈ m.active who.id := by rw [hact]; exact List.mem_cons_self
  have hcalls : (m.lone who.id).calls = [a.unplaced] := by rw [lone, hact]; rfl
  obtain ⟨l, stage, hgoes, hstep⟩ := advance_goes hact
  have hslot := h.orderly.slot who.id a ha
  have htells := h.untold.tells who.id a ha
  have hdropped : (m.step (.advance who)).tracer.queue.dropped = l.tracer.queue.dropped := by
    rw [hstep]
    simp [put]
  obtain ⟨c, counted, st⟩ := a
  -- a call that is not about to act writes nothing
  have hquiet : l.tracer.queue = m.tracer.queue → (∀ epoch slot fresh, st ≠ .guarding epoch slot fresh) →
      ((m.step (.advance who)).tracer.queue.dropped = m.tracer.queue.dropped ↔
        (m.lone who.id).Fits m.tracer.queue.size m.tracer.queue.capacity) := by
    intro hqueue hst
    refine ⟨fun _ c' counted' epoch slot fresh s hcall => ?_, fun _ => by rw [hdropped, hqueue]⟩
    rw [hcalls] at hcall
    cases st with
    | guarding epoch slot fresh => exact absurd rfl (hst epoch slot fresh)
    | _ => cases hcall
  cases hgoes with
  | @act t memory epoch slot fresh =>
    obtain ⟨s, hs⟩ := h.orderly.sound.stack?_of_slot? (hslot slot rfl)
    have hstack := stack_lone (hslot slot rfl) hs
    rw [hdropped, Call.act_dropped c epoch fresh h.untold.hasHandler hs, ← sealedTo_lone h.steady who.id]
    constructor
    · rintro hfits c' counted' epoch' slot' fresh' s' hcall hstack'
      rw [hcalls] at hcall
      rw [hstack] at hstack'
      cases hcall
      cases hstack'
      rw [deed_lone, greeting_lone m who.id c s.no, List.map_eq_nil_iff, List.length_map]
      exact hfits
    · intro hfits
      have hroom := hfits c counted epoch 0 fresh _ hcalls hstack
      rwa [deed_lone, greeting_lone m who.id c s.no, List.map_eq_nil_iff, List.length_map] at hroom
  | tell => cases htells
  | _ => exact hquiet rfl (by simp)

theorem capacity_step (m : Machine) (hx : x.isReset = false) :
    (m.step x).tracer.queue.capacity = m.tracer.queue.capacity := by
  have hclose : ∀ (q : Queue) (e : UInt64) (r : Record), (q.close e r).capacity = q.capacity := by
    intro q e r
    unfold Queue.close
    split <;> rfl
  have hreopen : ∀ (q : Queue) (r : Record), (q.reopen r).capacity = q.capacity := by
    intro q r
    unfold Queue.reopen
    split <;> simp [Queue.push]
  cases x with
  | call who c counted =>
    by_cases hr : m.ready who.id = true
    · obtain ⟨l, stage, hgoes, hstep⟩ := call_goes c counted hr
      rw [hstep]
      simpa [put] using hgoes.capacity
    · rw [step, call, if_neg hr]
  | advance who =>
    rcases hact : m.active who.id with _ | ⟨a, rest⟩
    · rw [Machine.step, advance_of_idle hact]
    · obtain ⟨l, stage, hgoes, hstep⟩ := advance_goes hact
      rw [hstep]
      simpa [put] using hgoes.capacity
  | suspend => rcases m.suspend_cases with heq | ⟨-, heq⟩ <;> rw [step, heq]; exact hclose ..
  | resume => rcases m.resume_cases with heq | ⟨-, heq⟩ <;> rw [step, heq]; exact hreopen ..
  | reset l => cases hx
  | notify => exact Queue.notify_capacity _
  | elsewhere j r => rw [step]; split <;> rfl
  | drain | receive | exclude | look => rfl

namespace Steady

/-- The queue grows by what is written. -/
theorem size_step (h : m.Steady) (hx : x.isReset = false) (hdrain : x ≠ .drain) :
    (m.step x).tracer.queue.size = m.tracer.queue.size + (m.news x).length := by
  have hflow := h.flow x
  generalize m.step x = m', m.news x = news at hflow
  cases hflow with
  | quiet _ hw | advance _ hw =>
    have hrecords := congrArg List.length hw.posts.records
    simpa [Queue.size] using hrecords
  | suspend | resume => simp [Queue.size, Queue.push]
  | reset => cases hx
  | drain => exact absurd rfl hdrain

/-- Only steps of calls make the queue drop records. -/
theorem dropped_step (h : m.Steady) (hd : m.tracer.queue.dropped = 0)
    (hx : ∀ who, x ≠ .advance who) : (m.step x).tracer.queue.dropped = 0 := by
  have hflow := h.flow x
  generalize m.step x = m', m.news x = news at hflow
  cases hflow with
  | quiet _ hw => rw [hw.posts.unreported, hd]; rfl
  | advance => exact absurd rfl (hx _)
  | suspend | resume => simpa [Queue.push] using hd
  | reset | drain => rfl

end Steady

/-- What a step of a thread's call puts into the queue is what the thread writes. -/
theorem Roomy.size_advance (h : Roomy crew limit m) (who : OsThread) :
    (m.step (.advance who)).tracer.queue.size + (m.lone who.id).records.length =
      m.tracer.queue.size + ((m.step (.advance who)).lone who.id).records.length := by
  rcases hact : m.active who.id with _ | ⟨a, rest⟩
  · rw [Machine.step, advance_of_idle hact]
  obtain rfl := h.untold.rest_eq_nil h.orderly hact
  have hslot := h.orderly.slot who.id a (by rw [hact]; exact List.mem_cons_self)
  have hrecords : ∀ m : Machine,
      (m.lone who.id).records.length = (m.view who.id).records.length := fun m => List.length_map ..
  obtain ⟨l, stage, -, hturn, hm⟩ := h.orderly.advance_turn hact
  rw [List.append_nil] at hm
  rw [Machine.step, hm, hrecords, hrecords]
  generalize hst : a.stage = st at hturn
  cases hturn with
  | find =>
    rw [view_found]
    simp [put, view, View.of]
  | enlist hnone hq =>
    rw [view_put, View.of, Roster.stackOf_enlist_self hnone, ← history, h.orderly.recordsFor_new hq,
      view, View.of, Roster.stackOf_of_slot?_eq_none hnone]
    simp [put, recordsFor]
  | rework hslot' _ hr _ _ =>
    have hi := hslot _ (hst ▸ hslot')
    obtain ⟨s, hs⟩ := h.orderly.sound.stack?_of_slot? hi
    obtain ⟨s', hs', -⟩ := hr.own s hs
    obtain ⟨new, hnew, hview⟩ := view_touched a (m.memory who.id) stage hi hr hs hs'
    have hsize := congrArg List.length hnew
    rw [hview]
    simp only [Tracer.written, List.length_map, List.length_append, Array.length_toList] at hsize
    simp [put, view, View.of, Queue.size, hsize]
    omega

/-! ### Fewer calls -/

/-- A run, and what is left of it without the hooks of all threads but `i`. -/
structure Thinned (crew : List Nat) (limit : UInt32) (i : Nat) (m m' : Machine) : Prop where
  roomy : Roomy crew limit m
  roomy' : Roomy crew limit m'
  lone : m'.lone i = m.lone i
  capacity : m'.tracer.queue.capacity = m.tracer.queue.capacity
  size : m'.tracer.queue.size ≤ m.tracer.queue.size
  dropped : m.tracer.queue.dropped = 0
  dropped' : m'.tracer.queue.dropped = 0

namespace Thinned

/-- The others call hooks in the one run only. -/
theorem skip (h : Thinned crew limit i m m') (hx : x.stays i = false)
    (hcall : ∀ j ∈ x.caller?, j ∈ crew) (hd : NoDrop m x) : Thinned crew limit i (m.step x) m' := by
  obtain ⟨j, hmover, hj⟩ : ∃ j, x.mover? = some j ∧ i ≠ j := by
    rcases hmover : x.mover? with _ | j
    · simp [Move.stays, hmover] at hx
    · exact ⟨j, rfl, fun heq => by simp [Move.stays, hmover, heq] at hx⟩
  have hreset : x.isReset = false := by cases x <;> first | rfl | cases hmover
  have hdrain : x ≠ .drain := fun heq => by rw [heq] at hmover; cases hmover
  exact
    { roomy := h.roomy.step hreset hcall
      roomy' := h.roomy'
      lone := h.lone.trans (h.roomy.step_of_ne hmover hj).symm
      capacity := h.capacity.trans (capacity_step m hreset).symm
      size := by
        rw [h.roomy.steady.size_step hreset hdrain]
        exact Nat.le_add_right_of_le h.size
      dropped := hd
      dropped' := h.dropped' }

/-- Nothing is dropped that is not dropped when the others call hooks, too. -/
theorem noDrop_of_stays (h : Thinned crew limit i m m') (hx : x.stays i = true) (hd : NoDrop m x) :
    NoDrop m' x := by
  by_cases hadvance : ∃ who, x = .advance who
  · obtain ⟨who, rfl⟩ := hadvance
    obtain rfl : who.id = i := by simpa [Move.stays, Move.mover?] using hx
    have hfits := (h.roomy.dropped_advance who).mp (hd.trans h.dropped.symm)
    rw [← h.lone, ← h.capacity] at hfits
    exact ((h.roomy'.dropped_advance who).mpr (hfits.mono h.size)).trans h.dropped'
  · exact h.roomy'.steady.dropped_step h.dropped' fun who heq => hadvance ⟨who, heq⟩

theorem size_of_stays (h : Thinned crew limit i m m') (hx : x.stays i = true)
    (hreset : x.isReset = false) (hlone : (m'.step x).lone i = (m.step x).lone i) :
    (m'.step x).tracer.queue.size ≤ (m.step x).tracer.queue.size := by
  have hsize := h.size
  by_cases hdrain : x = .drain
  · subst hdrain
    exact Nat.le_refl _
  have hgrows := h.roomy.steady.size_step hreset hdrain
  have hgrows' := h.roomy'.steady.size_step hreset hdrain
  rcases hmover : x.mover? with _ | j
  · -- whether a marker is written is known to every thread
    have hsuspended : m'.tracer.suspension.suspended = m.tracer.suspension.suspended :=
      congrArg Lone.suspended h.lone
    have hcontrol : (m'.control x).length = (m.control x).length := by
      cases x <;> simp only [control, hsuspended] <;> split <;> rfl
    rw [h.roomy.steady.news_of_mover?_eq_none hmover] at hgrows
    rw [h.roomy'.steady.news_of_mover?_eq_none hmover] at hgrows'
    omega
  · cases x with
    | call who c counted =>
      rw [news_call] at hgrows hgrows'
      omega
    | advance who =>
      obtain rfl : who.id = i := by simpa [Move.stays, Move.mover?] using hx
      have hwritten := h.roomy.size_advance who
      have hwritten' := h.roomy'.size_advance who
      rw [h.lone, hlone] at hwritten'
      omega
    | _ => cases hmover

theorem keep (h : Thinned crew limit i m m') (hx : x.stays i = true) (hreset : x.isReset = false)
    (hcall : ∀ j ∈ x.caller?, j ∈ crew) (hd : NoDrop m x) :
    Thinned crew limit i (m.step x) (m'.step x) := by
  have hd' := h.noDrop_of_stays hx hd
  have hlone : (m'.step x).lone i = (m.step x).lone i := by
    rw [(h.roomy'.lone_step hreset i fun _ => hd'.trans h.dropped'.symm).1, h.lone,
      (h.roomy.lone_step hreset i fun _ => hd.trans h.dropped.symm).1]
  exact
    { roomy := h.roomy.step hreset hcall
      roomy' := h.roomy'.step hreset hcall
      lone := hlone
      capacity := by rw [capacity_step m' hreset, capacity_step m hreset, h.capacity]
      size := h.size_of_stays hx hreset hlone
      dropped := hd
      dropped' := hd' }

/-- If the queue drops nothing from a run, it drops nothing either if the others call no hooks. -/
theorem noDrop (h : Thinned crew limit i m m') {xs : List Move} (hx : ∀ x ∈ xs, x.isReset = false)
    (hcall : ∀ x ∈ xs, ∀ j ∈ x.caller?, j ∈ crew) (hd : Along NoDrop m xs) :
    Along NoDrop m' (xs.filter (Move.stays i)) := by
  induction xs generalizing m m' with
  | nil => trivial
  | cons x xs ih =>
    obtain ⟨hreset, hx⟩ := List.forall_mem_cons.mp hx
    obtain ⟨hcall0, hcall⟩ := List.forall_mem_cons.mp hcall
    rw [List.filter_cons]
    split
    · rename_i hstays
      exact ⟨h.noDrop_of_stays hstays hd.1, ih (h.keep hstays hreset hcall0 hd.1) hx hcall hd.2⟩
    · rename_i hstays
      exact ih (h.skip (by simpa using hstays) hcall0 hd.1) hx hcall hd.2

end Thinned

end Machine

open Machine

/-- In a tracer with a slot for every thread that calls hooks, where nobody is told of first invocations,
nothing is reset and nothing is dropped, the threads do not interfere. If all others call no hooks
nothing is dropped either, and a thread learns from its hooks what it learns otherwise, sees the same
stack after each of their steps, and leaves the same records. So in any two runs in which its hooks and
what concerns all threads come in the same order, however the hooks of others come between. -/
theorem threads_do_not_interfere (id : Nat) (s : Settings) (crew : List Nat) (xs : List Move)
    (hcrew : crew.length ≤ s.threadSlots.toNat) (hx : ∀ x ∈ xs, x.isReset = false)
    (hcall : ∀ x ∈ xs, ∀ j ∈ x.caller?, j ∈ crew)
    (hd : Along NoDrop (.new (.new id s false)) xs) :
    let m := Machine.new (.new id s false)
    (∀ i, Along NoDrop m (xs.filter (Move.stays i)) ∧
      m.learned i (xs.filter (Move.stays i)) = m.learned i xs ∧
      (m.run (xs.filter (Move.stays i))).lines i = (m.run xs).lines i) ∧
    ∀ ys : List Move, (∀ x ∈ ys, x.isReset = false) → (∀ x ∈ ys, ∀ j ∈ x.caller?, j ∈ crew) →
      Along NoDrop m ys → ∀ i, ys.filter (Move.concerns i) = xs.filter (Move.concerns i) →
      m.learned i ys = m.learned i xs ∧ (m.run ys).lines i = (m.run xs).lines i := by
  intro m
  have hroomy : Roomy crew s.threadSlots m := .new id s hcrew
  have hsame : ∀ ys : List Move, (∀ x ∈ ys, x.isReset = false) →
      (∀ x ∈ ys, ∀ j ∈ x.caller?, j ∈ crew) → Along NoDrop m ys →
      ∀ i, ys.filter (Move.concerns i) = xs.filter (Move.concerns i) →
      m.learned i ys = m.learned i xs ∧ (m.run ys).lines i = (m.run xs).lines i := by
    intro ys hx' hcall' hd' i hconcerns
    obtain ⟨hrun, hlearned⟩ := hroomy.lone_run hx hcall rfl hd i
    obtain ⟨hrun', hlearned'⟩ := hroomy.lone_run hx' hcall' rfl hd' i
    have hconcerns' : ys.filter (Move.concerns (m.lone i).thread) =
        xs.filter (Move.concerns (m.lone i).thread) := hconcerns
    constructor
    · rw [hlearned, hlearned', ← Lone.learned_filter, hconcerns', Lone.learned_filter]
    · rw [lines_eq, lines_eq, hrun, hrun', ← Lone.run_filter, hconcerns', Lone.run_filter]
  refine ⟨fun i => ?_, hsame⟩
  have hthinned : Thinned crew s.threadSlots i m m := ⟨hroomy, hroomy, rfl, rfl, Nat.le_refl _, rfl, rfl⟩
  have hd' := hthinned.noDrop hx hcall hd
  have hconcerns : (xs.filter (Move.stays i)).filter (Move.concerns i) =
      xs.filter (Move.concerns i) := by
    rw [List.filter_filter]
    refine List.filter_congr fun x _ => ?_
    cases x <;> simp [Move.stays, Move.concerns, Move.mover?]
  exact ⟨hd', hsame _ (fun x hmem => hx x (List.mem_of_mem_filter hmem))
    (fun x hmem => hcall x (List.mem_of_mem_filter hmem)) hd' i hconcerns⟩

/-- Two threads open a root, and tracing is suspended while both are on the way. The second thread is
the second to be registered; without the first one it is the first. -/
theorem threads_do_not_interfere_numbers :
    let call (i : Nat) : Move := .call ⟨i, none⟩ ⟨.rootEntry, ⟨1⟩, none⟩ true
    let goOn (i n : Nat) : List Move := List.replicate n (.advance ⟨i, none⟩)
    let xs := call 0 :: goOn 0 3 ++ call 1 :: goOn 1 3 ++ [.suspend] ++ goOn 0 2 ++ goOn 1 2 ++ [.resume]
    let ys := call 1 :: goOn 1 3 ++ call 0 :: goOn 0 3 ++ [.suspend] ++ goOn 1 2 ++ goOn 0 2 ++ [.resume]
    let m := Machine.new (.new 0 .default false)
    [0, 1].length ≤ Settings.default.threadSlots.toNat ∧ (∀ x ∈ xs, x.isReset = false) ∧
      (∀ x ∈ xs, ∀ j ∈ x.caller?, j ∈ [0, 1]) ∧ Along NoDrop m xs ∧
      ((∀ x ∈ ys, x.isReset = false) ∧ (∀ x ∈ ys, ∀ j ∈ x.caller?, j ∈ [0, 1]) ∧
        Along NoDrop m ys ∧ ys.filter (Move.concerns 1) = xs.filter (Move.concerns 1)) ∧
      (m.run (xs.filter (Move.stays 1))).lines 1 = (m.run xs).lines 1 ∧
      (m.run ys).lines 1 = (m.run xs).lines 1 ∧
      (m.run xs).recordsOf 1 ≠ (m.run ys).recordsOf 1 ∧ ((m.run xs).lines 1).length = 2 := by
  intro call goOn xs ys m
  have hcrew : [0, 1].length ≤ Settings.default.threadSlots.toNat := by decide
  have hx : ∀ x ∈ xs, x.isReset = false := by decide
  have hcall : ∀ x ∈ xs, ∀ j ∈ x.caller?, j ∈ [0, 1] := by decide
  have hd : Along NoDrop m xs := by decide +kernel
  have hx' : ∀ x ∈ ys, x.isReset = false := by decide
  have hcall' : ∀ x ∈ ys, ∀ j ∈ x.caller?, j ∈ [0, 1] := by decide
  have hd' : Along NoDrop m ys := by decide +kernel
  have hconcerns : ys.filter (Move.concerns 1) = xs.filter (Move.concerns 1) := rfl
  obtain ⟨halone, hother⟩ := threads_do_not_interfere 0 .default [0, 1] xs hcrew hx hcall hd
  exact ⟨hcrew, hx, hcall, hd, ⟨hx', hcall', hd', hconcerns⟩, (halone 1).2.2,
    (hother ys hx' hcall' hd' 1 hconcerns).2, by decide +kernel, by decide +kernel⟩

end MethodTrace
