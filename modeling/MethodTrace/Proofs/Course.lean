import MethodTrace.Proofs.Gate
import MethodTrace.Proofs.Sight

/-!
# The course of a run

`told_run`: what a thread may count on after a run. No record of a thread is refused if none is
dropped and the seal keeps no call of the thread out (`Passes`).
-/

namespace MethodTrace

theorem Roster.recollect_congr {r r' : Roster} (hid : r'.id = r.id)
    (hg : r'.generation = r.generation) (memory : Memory) :
    r'.recollect memory = r.recollect memory := by
  unfold recollect
  rw [hid, hg]

theorem Roster.consult_undenied {r : Roster} {i : Nat} {memory memory' : Memory} {st : Standing}
    (h : r.recollect memory ≠ some .denied) (hi : i ∉ r.excluded)
    (hc : r.consult i memory = (st, memory')) : r.recollect memory' ≠ some .denied := by
  unfold consult at hc
  split at hc
  · cases hc
    exact h
  · cases hc
    rw [recollect_memoryOf]
    exact fun heq => lookup_ne_denied hi (Option.some.inj heq)

namespace Call.Goes
variable {c : Call} {who : OsThread} {l l' : Local} {stage stage' : Stage}

theorem settings (h : c.Goes who l stage l' stage') :
    l'.tracer.depthLimit = l.tracer.depthLimit ∧
      l'.tracer.captureReturns = l.tracer.captureReturns := by
  cases h with
  | act => exact ⟨act_touches.depthLimit, act_touches.captureReturns⟩
  | tell => exact ⟨(enter_touches _ _).depthLimit, (enter_touches _ _).captureReturns⟩
  | _ => exact ⟨rfl, rfl⟩

/-- A call leaves no denial behind if it is not denied. -/
theorem undenied (h : c.Goes who l stage l' stage')
    (hm : l.tracer.roster.recollect l.memory ≠ some .denied)
    (hi : who.id ∉ l.tracer.roster.excluded)
    (hr : l.tracer.roster.slot? who.id ≠ none ∨ ∀ e, stage' ≠ .returned (.error e)) :
    l'.tracer.roster.recollect l'.memory ≠ some .denied := by
  obtain ⟨hid, hg, -⟩ := h.roster_same
  rw [Roster.recollect_congr hid hg]
  cases h with
  | find hc | denied hc | stranger hc => exact Roster.consult_undenied hm hi hc
  | refuse hc he hslot =>
    rcases hr with hr | hr
    · obtain ⟨s, hs⟩ := Option.ne_none_iff_exists'.mp hr
      rw [Roster.register_slot_of_slot? hs] at hslot
      cases hslot
    · exact absurd rfl (hr _)
  | @register t memory memory' epoch slot hc he hslot =>
    have hm' := Roster.consult_undenied hm hi hc
    unfold Roster.register at hslot ⊢
    split
    · exact hm'
    · split
      · rename_i hnone _ hq
        simp [hnone, hq] at hslot
      · simp
  | _ => exact hm

end Call.Goes

/-- Once a call has had its effect, or has begun to, that is settled. -/
theorem Call.Goes.isPending {c : Call} {who : OsThread} {l l' : Local} {stage stage' : Stage}
    (h : c.Goes who l stage l' stage') (hp : (stage'.footing c).isPending = true) :
    (stage.footing c).isPending = true := by
  cases h with
  | @act t memory epoch slot fresh =>
    rcases act_stage (c := c) t epoch slot fresh with hs | ⟨o, hs⟩ <;> rw [hs] at hp <;> cases hp
  | _ => first | rfl | cases hp

namespace Machine
variable {m : Machine} {limit : UInt32} {i : Nat} {x : Move}

theorem scribe_step (m : Machine) (x : Move) (hx : x.isReset = false) :
    (m.step x).tracer.scribe = m.tracer.scribe := by
  have settings : ∀ {t t' : Tracer}, t'.depthLimit = t.depthLimit ∧
      t'.captureReturns = t.captureReturns → t'.scribe = t.scribe := by
    rintro t t' ⟨h, h'⟩
    funext no
    rw [Tracer.scribe, Tracer.scribe, h, h']
  have proceed : ∀ (m : Machine) who a rest,
      (m.proceed who a rest).tracer.scribe = m.tracer.scribe := by
    intro m who a rest
    obtain ⟨l, stage, hgoes, hm⟩ := m.proceed_goes who a rest
    rw [hm]
    exact settings (by simpa [put] using hgoes.settings)
  cases x with
  | call who c counted =>
    simp only [step, call]
    split
    · rw [proceed, note_tracer]
    · rfl
  | advance who =>
    simp only [step, advance]
    split
    · rfl
    · exact proceed ..
  | suspend =>
    rcases m.suspend_cases with heq | ⟨-, heq⟩ <;> simp only [step, heq]
    rfl
  | resume =>
    rcases m.resume_cases with heq | ⟨-, heq⟩ <;> simp only [step, heq]
    rfl
  | reset l => cases hx
  | elsewhere j r => simp only [step]; split <;> rfl
  | _ => rfl

namespace Invited

theorem new (id : Nat) (s : Settings) (hasHandler : Bool) (i : Nat) :
    (Machine.new (.new id s hasHandler)).Invited i :=
  ⟨by simp [Machine.new, Roster.recollect], by simp [Machine.new, Tracer.new, Roster.new]⟩

theorem congr {m' : Machine} (h : m.Invited i) (hid : m'.tracer.roster.id = m.tracer.roster.id)
    (hg : m'.tracer.roster.generation = m.tracer.roster.generation)
    (he : m'.tracer.roster.excluded = m.tracer.roster.excluded) (hm : m'.memory i = m.memory i) :
    m'.Invited i where
  undenied := by rw [hm, Roster.recollect_congr hid hg]; exact h.undenied
  included := by rw [he]; exact h.included

theorem advance (h : m.Invited i) (ho : m.Orderly limit) (who : OsThread)
    (hgranted : Granted i m (.advance who)) : (m.advance who).Invited i := by
  rcases hact : m.active who.id with _ | ⟨a, rest⟩
  · rw [advance_of_idle hact]
    exact h
  obtain ⟨l, stage, hgoes, hm, houtcome⟩ := advance_outcome hact
  obtain ⟨hid, hg, he⟩ := hgoes.roster_same
  rw [Machine.step] at hm
  rw [hm]
  by_cases hi : i = who.id
  · subst hi
    -- only the outermost call can have to register the thread, and it is granted a slot
    have hr : m.tracer.roster.slot? who.id ≠ none ∨ ∀ e, stage ≠ .returned (.error e) := by
      rcases rest with _ | ⟨b, rest⟩
      · exact .inr (hgranted.stage_ne hact houtcome)
      · exact .inl fun hnone => by cases ho.rest_eq_nil_of_unregistered hact hnone
    refine ⟨?_, by simpa [put, he] using h.included⟩
    simpa [put] using hgoes.undenied h.undenied h.included hr
  · exact h.congr (by simpa [put] using hid) (by simpa [put] using hg) (by simpa [put] using he)
      (by simp [put, hi])

theorem call (h : m.Invited i) (who : OsThread) (c : Call) (counted : Bool) :
    (m.call who c counted).Invited i := by
  by_cases hr : m.ready who.id = true
  swap
  · rw [Machine.call, if_neg hr]
    exact h
  obtain ⟨stage, hcall, -⟩ := call_eq_put hr c counted
  rw [hcall]
  refine h.congr (by simp [put]) (by simp [put]) (by simp [put]) ?_
  simp only [put, note_memory, Function.update_apply]
  split
  · rename_i hi; rw [hi]
  · rfl

theorem remember (h : m.Invited i) {j : Nat} {memory : Memory}
    (hm : j = i → m.tracer.roster.recollect memory ≠ some .denied) :
    (m.remember j memory).Invited i := by
  refine ⟨?_, h.included⟩
  simp only [Machine.remember, Function.update_apply]
  split
  · rename_i hi; exact hm hi.symm
  · exact h.undenied

theorem step (h : m.Invited i) (ho : m.Orderly limit) (x : Move) (hx : x.isReset = false)
    (hexclude : x.excluded? ≠ some i) (hgranted : Granted i m x) : (m.step x).Invited i := by
  cases x with
  | call who c counted => exact h.call who c counted
  | advance who => exact h.advance ho who hgranted
  | suspend =>
    rcases m.suspend_cases with heq | ⟨-, heq⟩ <;> simp only [Machine.step, heq]
    · exact h
    have hroster := Suspension.bumpAll_eq m.tracer.roster m.tracer.roster.slots
    have hid := congrArg Roster.id hroster
    have hg := congrArg Roster.generation hroster
    have he := congrArg Roster.excluded hroster
    exact h.congr hid hg he rfl
  | resume =>
    rcases m.resume_cases with heq | ⟨-, heq⟩ <;> simp only [Machine.step, heq]
    · exact h
    have hroster := Suspension.releaseAll_eq m.tracer.roster m.tracer.suspension.held
    have hid := congrArg Roster.id hroster
    have hg := congrArg Roster.generation hroster
    have he := congrArg Roster.excluded hroster
    exact h.congr hid hg he rfl
  | reset l => cases hx
  | exclude j =>
    have hj : i ≠ j := fun heq => hexclude (by rw [heq]; rfl)
    refine ⟨?_, ?_⟩
    · simp only [Machine.step, Machine.exclude, Machine.remember, Function.update_of_ne hj]
      exact h.undenied
    · simp only [Machine.step, Machine.exclude, Machine.remember, Tracer.exclude, Roster.exclude]
      split
      · exact h.included
      · simpa [hj] using h.included
  | look j =>
    refine h.remember fun hj => ?_
    subst hj
    unfold Tracer.look
    rcases hc : m.tracer.roster.consult j (m.memory j) with ⟨st, memory⟩
    have := Roster.consult_undenied h.undenied h.included hc
    cases st <;> exact this
  | elsewhere j r =>
    simp only [Machine.step]
    split
    · exact h
    · rename_i hr
      exact h.remember fun _ => by simp [Roster.recollect, hr]
  | _ => exact h.congr rfl rfl rfl rfl

end Invited

namespace Welcome

theorem new (id : Nat) (s : Settings) (hasHandler : Bool) (i : Nat) :
    (Machine.new (.new id s hasHandler)).Welcome i :=
  have h := Invited.new id s hasHandler i
  ⟨fun hp => (by cases hp), h.undenied, h.included⟩

theorem invited (h : m.Welcome i) : m.Invited i := ⟨h.undenied, h.included⟩

/-- Who is not shut out is refused nothing. -/
theorem granted (h : m.Welcome i) (ho : m.Orderly limit)
    (hroom : m.tracer.roster.slot? i = none → m.tracer.quota.remaining ≠ 0) (x : Move) :
    Granted i m x := by
  cases x with
  | advance who =>
    rintro rfl hlength
    obtain ⟨⟨c, counted, st⟩, hact⟩ := List.length_eq_one_iff.mp hlength
    obtain ⟨l, stage, hgoes, -, houtcome⟩ := advance_outcome hact
    have hmem : ⟨c, counted, st⟩ ∈ m.active who.id := by rw [hact]; exact List.mem_cons_self
    have hquiet : (st.footing c).isPending = true → m.tracer.suspension.suspended = false :=
      fun hp => h.quiet (by rw [hact]; exact hp)
    have hover := (ho.stacked who.id).isOver_eq_false hmem
    have hslot := ho.slot who.id _ hmem
    rw [houtcome]
    cases hgoes with
    | suspended hnone => simp [Suspension.openEpoch, hquiet rfl] at hnone
    | denied hdenied => exact absurd hdenied h.invited.consult_ne_denied
    | refuse _ _ hr => exact absurd hr (h.invited.register_slot_ne_none hroom _)
    | guarded hguarded =>
      obtain ⟨s, hs⟩ := ho.sound.stack?_of_slot? (hslot _ rfl)
      have hguard := ho.guard who.id _ s (hslot _ rfl) hs
      have hgs := hguarded s hs
      rw [hact, weight_cons, weight_nil, Suspension.weight, ho.free (hquiet rfl)] at hguard
      simp [CallStack.guarded_eq, hguard, Stage.weight, Stage.guards] at hgs
    | act => rcases Call.act_stage .. with hs | ⟨o, hs⟩ <;> rw [hs] <;> rfl
    | ended => cases hover
    | _ => rfl
  | _ => trivial

/-- Tracing is not suspended on a thread's way to its stack. -/
theorem quiet_step (h : m.Welcome i) (x : Move)
    (hs : x.isSuspend = true → (footing (m.active i)).isPending = false)
    (hp : (footing ((m.step x).active i)).isPending = true) :
    (m.step x).tracer.suspension.suspended = false := by
  cases x with
  | call who c counted =>
    by_cases hr : m.ready who.id = true
    swap
    · rw [Machine.step, Machine.call, if_neg hr] at hp ⊢
      exact h.quiet hp
    obtain ⟨stage, hcall, hstage⟩ := call_eq_put hr c counted
    rw [Machine.step, hcall] at hp ⊢
    simp only [put, note_active, Function.update_apply, Activity.settle_suspension] at hp ⊢
    split at hp
    · rename_i hi
      rcases hstage with ⟨-, rfl⟩ | ⟨hs, -⟩
      · exact h.quiet (hi ▸ hp)
      · exact hs
    · exact h.quiet hp
  | advance who =>
    rcases hact : m.active who.id with _ | ⟨a, rest⟩
    · rw [Machine.step, advance_of_idle hact] at hp ⊢
      exact h.quiet hp
    obtain ⟨l, stage, hgoes, heq⟩ := advance_goes hact
    rw [heq] at hp ⊢
    simp only [put, Function.update_apply, Activity.settle_suspension, hgoes.suspension] at hp ⊢
    split at hp
    · rename_i hi
      refine h.quiet ?_
      rw [hi, hact]
      cases rest with
      | nil =>
        rw [List.append_nil, footing_next] at hp
        exact hgoes.isPending hp
      | cons b rest =>
        rw [footing_append_cons] at hp
        rwa [← List.singleton_append, footing_append_cons]
    · exact h.quiet hp
  | suspend =>
    rcases m.suspend_cases with heq | ⟨-, heq⟩ <;> simp only [Machine.step, heq] at hp ⊢
    · exact h.quiet hp
    · rw [hs rfl] at hp
      cases hp
  | resume =>
    rcases m.resume_cases with heq | ⟨-, heq⟩ <;> simp only [Machine.step, heq] at hp ⊢
    · exact h.quiet hp
  | reset l =>
    rcases hr : m.tracer.reset l with e | t
    · simp only [Machine.step, Machine.reset, hr] at hp ⊢
      exact h.quiet hp
    · obtain ⟨-, rfl⟩ := Tracer.reset_eq_ok hr
      simp only [Machine.step, Machine.reset, hr] at hp ⊢
      exact h.quiet hp
  | elsewhere j r =>
    simp only [Machine.step] at hp ⊢
    split at hp
    · rename_i hr
      rw [if_pos hr]
      exact h.quiet hp
    · rename_i hr
      rw [if_neg hr]
      exact h.quiet hp
  | _ => exact h.quiet hp

theorem step (h : m.Welcome i) (ho : m.Orderly limit) (x : Move) (hx : x.isReset = false)
    (hs : m.Spares i x) : (m.step x).Welcome i :=
  have h' := h.invited.step ho x hx hs.exclude (h.granted ho hs.room x)
  ⟨h.quiet_step x hs.suspend, h'.undenied, h'.included⟩

/-- A run that spares a thread refuses it nothing. -/
theorem granted_run (h : m.Welcome i) (ho : m.Orderly limit) {xs : List Move}
    (hx : ∀ x ∈ xs, x.isReset = false) (hs : Along (fun m x => m.Spares i x) m xs) :
    Along (Granted i) m xs := by
  induction xs generalizing m with
  | nil => trivial
  | cons x xs ih =>
    have hx0 := hx x List.mem_cons_self
    exact ⟨h.granted ho hs.1.room x, ih (h.step ho x hx0 hs.1) (ho.step x hx0)
      (fun y hy => hx y (List.mem_cons_of_mem _ hy)) hs.2⟩

end Welcome

/-! ### Runs in which nothing is refused -/

/-- A move on which no record is dropped. -/
def NoDrop (m : Machine) (x : Move) : Prop := (m.step x).tracer.queue.dropped = 0

instance (m : Machine) (x : Move) : Decidable (NoDrop m x) :=
  inferInstanceAs (Decidable (_ = _))

/-- Tracing is suspended between two calls of the thread, or the epochs have not run out. -/
def EpochLeft (i : Nat) (m : Machine) (x : Move) : Prop :=
  x.isSuspend = true → (m.active i).isEmpty = true ∨ m.suspensions + 1 < UInt64.size

instance (i : Nat) (m : Machine) (x : Move) : Decidable (EpochLeft i m x) :=
  inferInstanceAs (Decidable (_ → _))

/-- Tracing is not suspended while it is open if a call of the thread will have an effect. -/
def Settled (i : Nat) (m : Machine) (x : Move) : Prop :=
  x.isSuspend = true → (footing (m.active i)).isPending = false

instance (i : Nat) (m : Machine) (x : Move) : Decidable (Settled i m x) :=
  inferInstanceAs (Decidable (_ → _))

/-- The queue is sealed while tracing is suspended, and only then, and the seal keeps no call of the
thread out that is in progress. -/
structure Passes (m : Machine) (i : Nat) : Prop where
  shut : m.tracer.queue.isClosed = m.tracer.suspension.suspended
  epoch : m.tracer.suspension.epoch = .ofNat m.suspensions
  noted : ∀ a ∈ m.active i, ∀ e, a.stage.epoch? = some e → ∃ n ≤ m.suspensions, e = .ofNat n
  passes : ∀ a ∈ m.active i, ∀ e, a.stage.epoch? = some e → m.tracer.queue.keepsOut e = false

namespace Passes

theorem new (id : Nat) (s : Settings) (hasHandler : Bool) (i : Nat) :
    (Machine.new (.new id s hasHandler)).Passes i :=
  ⟨rfl, rfl, by simp [Machine.new], by simp [Machine.new]⟩

theorem congr {m' : Machine} (h : m.Passes i)
    (hq : m'.tracer.queue.closedFrom = m.tracer.queue.closedFrom)
    (hs : m'.tracer.suspension = m.tracer.suspension) (ha : m'.active i = m.active i)
    (hn : m'.suspensions = m.suspensions) : m'.Passes i where
  shut := by rw [Queue.isClosed, hq, hs]; exact h.shut
  epoch := by rw [hs, hn]; exact h.epoch
  noted := by rw [ha, hn]; exact h.noted
  passes := by rw [ha]; simp only [Queue.keepsOut, hq]; exact h.passes

/-- A call that starts now notes the latest epoch, and finds no seal. -/
theorem openEpoch (h : m.Passes i) {e : UInt64} (he : m.tracer.suspension.openEpoch = some e) :
    (∃ n ≤ m.suspensions, e = .ofNat n) ∧ m.tracer.queue.keepsOut e = false := by
  unfold Suspension.openEpoch at he
  split at he
  · cases he
  · rename_i hs
    cases he
    exact ⟨⟨_, Nat.le_refl _, h.epoch⟩, Queue.keepsOut_of_open _ _ (h.shut.trans (by simpa using hs))⟩

theorem proceed (h : m.Passes i) {who : OsThread} {a : Activity} {rest : List Activity}
    (ha : i = who.id → ∀ b ∈ a :: rest, b.stage.epoch? = none ∨ b ∈ m.active i) :
    (m.proceed who a rest).Passes i := by
  obtain ⟨l, stage, hgoes, hm⟩ := m.proceed_goes who a rest
  rw [hm]
  by_cases hi : i = who.id
  swap
  · exact h.congr (by simpa [put] using hgoes.closedFrom) (by simpa [put] using hgoes.suspension)
      (by simp [put, hi]) rfl
  have hb : ∀ b ∈ a.next stage ++ rest, ∀ e, b.stage.epoch? = some e →
      (∃ n ≤ m.suspensions, e = .ofNat n) ∧ m.tracer.queue.keepsOut e = false := by
    have old : ∀ b ∈ a :: rest, ∀ e, b.stage.epoch? = some e →
        (∃ n ≤ m.suspensions, e = .ofNat n) ∧ m.tracer.queue.keepsOut e = false := by
      intro b hb e he
      rcases ha hi b hb with hnone | hmem
      · rw [hnone] at he; cases he
      · exact ⟨h.noted b hmem e he, h.passes b hmem e he⟩
    intro b hb e he
    rcases List.mem_append.mp hb with hb | hb
    · rw [(Activity.eq_of_mem_next hb).1] at he
      rcases hgoes.epoch? he with he | he
      · exact old a List.mem_cons_self e he
      · exact h.openEpoch he
    · exact old b (List.mem_cons_of_mem _ hb) e he
  subst hi
  have hq := hgoes.closedFrom
  have hs := hgoes.suspension
  refine ⟨?_, ?_, fun b hmem e he => ?_, fun b hmem e he => ?_⟩
  · simp only [put, Activity.settle_queue, Activity.settle_suspension, Queue.isClosed, hq, hs]
    exact h.shut
  · simp only [put, Activity.settle_suspension, hs]
    exact h.epoch
  · simp only [put, Function.update_self] at hmem
    exact (hb b hmem e he).1
  · simp only [put, Function.update_self] at hmem
    simp only [put, Activity.settle_queue, Queue.keepsOut, hq]
    exact (hb b hmem e he).2

theorem call (h : m.Passes i) (who : OsThread) (c : Call) (counted : Bool) :
    (m.call who c counted).Passes i := by
  unfold Machine.call
  split
  · have hnote : (m.note who.id c).Passes i := h.congr (by simp) (by simp) (by simp) (by simp)
    refine hnote.proceed fun hi b hb => ?_
    rcases List.mem_cons.mp hb with rfl | hb
    · exact .inl rfl
    · rw [note_active, hi]
      exact .inr hb
  · exact h

theorem advance (h : m.Passes i) (who : OsThread) : (m.advance who).Passes i := by
  unfold Machine.advance
  split
  · exact h
  · rename_i a rest hact
    refine h.proceed fun hi b hb => .inr ?_
    rwa [hi, hact]

theorem suspend (h : m.Passes i) (he : EpochLeft i m .suspend) : m.suspend.Passes i := by
  rcases m.suspend_cases with heq | ⟨hs, heq⟩ <;> rw [heq]
  · exact h
  have hopen : m.tracer.queue.isClosed = false := h.shut.trans hs
  have hclosed := Queue.close_closedFrom m.tracer.queue (m.tracer.suspension.epoch + 1)
    (m.tracer.marker .threadsSuspended) hopen
  have hepoch : m.tracer.suspension.epoch + 1 = .ofNat (m.suspensions + 1) := by
    rw [h.epoch, UInt64.ofNat_add]
    rfl
  refine ⟨by simp only [Queue.isClosed, hclosed, Option.isSome_some], hepoch, fun a ha e hae => ?_,
    fun a ha e hae => ?_⟩
  · obtain ⟨n, hn, hen⟩ := h.noted a ha e hae
    exact ⟨n, Nat.le_succ_of_le hn, hen⟩
  · rcases he rfl with hidle | hleft
    · rw [List.isEmpty_iff.mp hidle] at ha
      cases ha
    · -- the call noted its epoch before this suspension, and no epoch comes back
      obtain ⟨n, hn, rfl⟩ := h.noted a ha e hae
      have hlt : (UInt64.ofNat n).toNat < (UInt64.ofNat (m.suspensions + 1)).toNat := by
        rw [UInt64.toNat_ofNat_of_lt' hleft, UInt64.toNat_ofNat_of_lt' (by omega)]
        omega
      have : ¬ UInt64.ofNat (m.suspensions + 1) ≤ UInt64.ofNat n := by
        rw [UInt64.le_iff_toNat_le]
        omega
      rw [← hepoch] at this
      simp only [Queue.keepsOut, hclosed, Option.any_some, this, decide_false]

theorem resume (h : m.Passes i) : m.resume.Passes i := by
  rcases m.resume_cases with heq | ⟨hs, heq⟩ <;> rw [heq]
  · exact h
  have hclosed : m.tracer.queue.isClosed = true := h.shut.trans hs
  have hopen : (m.tracer.queue.reopen (m.tracer.marker .threadsResumed)).isClosed = false := by
    simp only [Queue.isClosed, Queue.reopen_closedFrom _ _ hclosed, Option.isSome_none]
  exact ⟨hopen, h.epoch, h.noted, fun a ha e hae => Queue.keepsOut_of_open _ _ hopen⟩

theorem step (h : m.Passes i) (x : Move) (he : EpochLeft i m x) : (m.step x).Passes i := by
  cases x with
  | call who c counted => exact h.call who c counted
  | advance who => exact h.advance who
  | suspend => exact h.suspend he
  | resume => exact h.resume
  | reset l =>
    simp only [Machine.step, reset]
    split
    · rename_i t ht
      obtain ⟨-, rfl⟩ := Tracer.reset_eq_ok ht
      exact h.congr rfl rfl rfl rfl
    · exact h
  | notify => exact h.congr (by simp [Machine.step, Tracer.notify]) rfl rfl rfl
  | elsewhere j r =>
    simp only [Machine.step]
    split
    · exact h
    · exact h.congr rfl rfl rfl rfl
  | _ => exact h.congr rfl rfl rfl rfl

theorem admits (h : m.Passes i) (hd : m.tracer.queue.dropped = 0) {xs : List Move}
    (he : Along (EpochLeft i) m xs) (hdrop : Along NoDrop m xs) :
    Along (fun m x => m.Admits i (m.step x)) m xs := by
  induction xs generalizing m with
  | nil => trivial
  | cons x xs ih =>
    exact ⟨⟨h.passes, hdrop.1.trans hd.symm⟩, ih (h.step x he.1) hdrop.1 he.2 hdrop.2⟩

end Passes

/-! ### Runs -/

theorem told_new (id : Nat) (s : Settings) (hasHandler : Bool) (i : Nat) (lossless calm : Prop) :
    View.Told (Machine.new (.new id s hasHandler)).tracer.scribe lossless calm
      ((Machine.new (.new id s hasHandler)).view i) :=
  .stranger (List.forall_mem_nil _) (.inl rfl) fun _ => rfl

/-- What a thread may count on after a run: if no record of the thread is refused on the way its
records are accounted for, and if none of its calls is refused that has begun they all have their
effect. -/
theorem told_run {lossless calm : Prop} (h : m.Orderly limit) {xs : List Move}
    (hx : ∀ x ∈ xs, x.isReset = false) (hw : calm → m.Invited i)
    (hl : lossless → Along (fun m x => m.Admits i (m.step x)) m xs)
    (hc : calm → (∀ x ∈ xs, x.excluded? ≠ some i) ∧ Along (Granted i) m xs)
    (ht : View.Told m.tracer.scribe lossless calm (m.view i)) :
    View.Told m.tracer.scribe lossless calm ((m.run xs).view i) := by
  induction xs generalizing m with
  | nil => exact ht
  | cons x xs ih =>
    have hx0 := hx x List.mem_cons_self
    have hstep := view_step h x hx0 i (fun hlossless => (hl hlossless).1)
      fun hcalm => ⟨hw hcalm, (hc hcalm).2.1⟩
    have hinvited := fun hcalm =>
      (hw hcalm).step h x hx0 ((hc hcalm).1 x List.mem_cons_self) (hc hcalm).2.1
    have := ih (h.step x hx0) (fun y hy => hx y (List.mem_cons_of_mem _ hy)) hinvited
      (fun hlossless => (hl hlossless).2)
      (fun hcalm => ⟨fun y hy => (hc hcalm).1 y (List.mem_cons_of_mem _ hy), (hc hcalm).2.2⟩)
      (by rw [m.scribe_step x hx0]; exact ht.step hstep)
    rwa [m.scribe_step x hx0] at this

end Machine

end MethodTrace
