import MethodTrace.Proofs.Gate
import MethodTrace.Proofs.Posting

/-!
# What a move does to the records

`Flow` lists what a move of a run can do to the queue, the suspension and the tally: a call posts
something, a marker is written as the queue is sealed or opened, or the queue is emptied. Invariants
of what has been written are proved from it, case by case. It needs that calls in progress are not
over and that the queue is sealed just while tracing is suspended (`Steady`), which holds along all
runs, however many suspensions there are.
-/

namespace MethodTrace

/-- Whose registration a call announces with its next step. -/
def Call.told (c : Call) (t : Tracer) : Stage → List UInt32
  | .guarding _ slot fresh => ((t.roster.stack? slot).map (c.announces fresh)).getD []
  | _ => []

namespace Call.Goes
variable {c : Call} {who : OsThread} {l l' : Local} {stage stage' : Stage}

theorem posts (h : c.Goes who l stage l' stage') :
    ∃ news drops, Tracer.Posts stage.epoch? l.tracer l'.tracer news drops (c.told l.tracer stage) := by
  cases h with
  | @act t memory epoch slot fresh =>
    rcases hs : t.roster.stack? slot with _ | s
    · have heq : (c.act t epoch slot fresh).1 = t := by simp only [Call.act, hs]
      rw [heq, told, hs]
      exact ⟨_, _, .refl t⟩
    · rw [told, hs]
      exact c.act_posts epoch fresh hs
  | @tell t memory epoch slot o => exact c.enter_posts t epoch slot o
  | _ => exact ⟨_, _, .nothing rfl rfl rfl rfl⟩

/-- No call returns a refusal of the queue. -/
theorem result_ne_queue (h : c.Goes who l stage l' stage') (hover : stage.isOver = false)
    (e : QueueError) : stage' ≠ .returned (.error (.queue e)) := by
  cases h with
  | ended => cases hover
  | act => rcases act_stage .. with hs | ⟨o, hs⟩ <;> rw [hs] <;> exact Stage.noConfusion
  | denied => split <;> simp
  | _ => simp

end Call.Goes

/-- The refusals that calls return are not those of the queue. -/
theorem Activity.settle_posts (epoch? : Option UInt64) (a : Activity) (t : Tracer) {stage : Stage}
    (h : ∀ e, stage ≠ .returned (.error (.queue e))) :
    Tracer.Posts epoch? t (a.settle t stage) [] 0 [] := by
  have hcount : ∀ r : Except HookError Unit, (∀ e, r ≠ .error (.queue e)) →
      Tracer.Posts epoch? t (t.countResult r) [] 0 [] := by
    intro r hr
    rcases r with (_ | _ | _ | e) | _
    · constructor <;> simp [Tracer.countResult, Tracer.countRefused, Tally.countRefused]
    · constructor <;> simp [Tracer.countResult, Tracer.countRefused, Tally.countRefused]
    · constructor <;> simp [Tracer.countResult, Tracer.countRefused, Tally.countRefused]
    · exact absurd rfl (hr e)
    · exact .refl t
  unfold settle
  split
  · split
    · exact hcount _ fun e he => h e (by rw [he])
    · exact .refl t
  · exact .refl t

namespace Machine
variable {m m' : Machine} {x : Move}

/-- No call in progress is over, and the queue is sealed while tracing is suspended. -/
structure Steady (m : Machine) : Prop where
  going : ∀ i, ∀ a ∈ m.active i, a.stage.isOver = false
  closedFrom : m.tracer.queue.closedFrom =
    if m.tracer.suspension.suspended then some m.tracer.suspension.epoch else none
  epoch : m.tracer.suspension.epoch = .ofNat m.suspensions

/-- What a move has put into the queue. -/
def news (m : Machine) (x : Move) : List Record :=
  (m.step x).tracer.queue.records.toList.drop m.tracer.queue.records.size

theorem news_eq (rs : List Record)
    (h : (m.step x).tracer.queue.records.toList = m.tracer.queue.records.toList ++ rs) :
    m.news x = rs := by
  rw [news, h, ← Array.length_toList, List.drop_left]

theorem news_eq_nil (h : (m.step x).tracer.queue.records = #[]) : m.news x = [] := by
  simp [news, h]

/-- Whether a move resets all. -/
def resets (m : Machine) : Move → Bool
  | .reset _ => m.tracer.suspension.suspended
  | _ => false

/-- Whether a move suspends, resumes or resets, or drains the queue. -/
def controls (m : Machine) : Move → Bool
  | .suspend => !m.tracer.suspension.suspended
  | .resume | .reset _ => m.tracer.suspension.suspended
  | .drain => true
  | _ => false

/-- What calls have done from `m` to `m'`. -/
structure Wrote (epoch? : Option UInt64) (m m' : Machine) (news : List Record) (drops : Nat)
    (told : List UInt32) : Prop where
  posts : Tracer.Posts epoch? m.tracer m'.tracer news drops told
  suspension : m'.tracer.suspension = m.tracer.suspension
  past : m'.past = m.past
  suspensions : m'.suspensions = m.suspensions

inductive Flow (m : Machine) : Move → Machine → List Record → Prop where
  | quiet {x : Move} {m' : Machine} (hx : m.controls x = false) (h : Wrote none m m' [] 0 []) :
    Flow m x m' []
  | advance {who : OsThread} {a : Activity} {rest : List Activity} {m' : Machine}
    {news : List Record} {drops : Nat} {told : List UInt32} (hact : m.active who.id = a :: rest)
    (h : Wrote a.stage.epoch? m m' news drops told) : Flow m (.advance who) m' news
  | suspend (hs : m.tracer.suspension.suspended = false) :
    Flow m .suspend
      { m with
        tracer := { m.tracer with
          suspension := ⟨true, m.tracer.suspension.epoch + 1, m.tracer.roster.slots⟩
          roster := Suspension.bumpAll m.tracer.roster m.tracer.roster.slots
          queue := { m.tracer.queue with closedFrom := some (m.tracer.suspension.epoch + 1) }.push
            (m.tracer.marker .threadsSuspended)
          clock := m.tracer.clock.next }
        suspensions := m.suspensions + 1 } [m.tracer.marker .threadsSuspended]
  | resume (hs : m.tracer.suspension.suspended = true) :
    Flow m .resume
      { m with
        tracer := { m.tracer with
          suspension := ⟨false, m.tracer.suspension.epoch, []⟩
          roster := Suspension.releaseAll m.tracer.roster m.tracer.suspension.held
          queue := ({ m.tracer.queue with closedFrom := none }.push
            (m.tracer.marker .threadsResumed)).signal .nonEmpty
          clock := m.tracer.clock.next } } [m.tracer.marker .threadsResumed]
  | reset {l : Settings.Limits} (hs : m.tracer.suspension.suspended = true) :
    Flow m (.reset l)
      { m with
        tracer := { m.tracer with
          invoked := .empty
          roster := m.tracer.roster.clear
          quota := ⟨l.threadSlots⟩
          queue := m.tracer.queue.reset l.bufferCapacity.toNat
          depthLimit := l.depthLimit }
        past := m.history } []
  | drain : Flow m .drain m.drain []

theorem suspensions_suspend (hs : m.tracer.suspension.suspended = false) :
    m.suspend.suspensions = m.suspensions + 1 := by
  obtain ⟨x, hx⟩ : ∃ x, m.tracer.suspension.suspend m.tracer.roster m.tracer.roster.slots = .ok x := by
    rw [Suspension.suspend, hs]
    exact ⟨_, rfl⟩
  unfold suspend Tracer.suspend
  rw [hx]
  rfl

theorem suspended_resume (hs : m.tracer.suspension.suspended = true) :
    m.resume.tracer.suspension.suspended = false := by
  obtain ⟨x, hx, hx'⟩ : ∃ x, m.tracer.suspension.resume m.tracer.roster = .ok x ∧
      x.1.suspended = false := by
    rw [Suspension.resume, hs]
    exact ⟨_, rfl, rfl⟩
  unfold resume Tracer.resume
  rw [hx]
  exact hx'

namespace Steady

theorem new (id : Nat) (s : Settings) (hasHandler : Bool) :
    (Machine.new (.new id s hasHandler)).Steady :=
  ⟨by simp [Machine.new], rfl, rfl⟩

theorem isClosed (h : m.Steady) : m.tracer.queue.isClosed = m.tracer.suspension.suspended := by
  rw [Queue.isClosed, h.closedFrom]
  split <;> simp [*]

theorem keepsOut (h : m.Steady) (hs : m.tracer.suspension.suspended = false) (e : UInt64) :
    m.tracer.queue.keepsOut e = false := by
  rw [Queue.keepsOut, h.closedFrom, hs]
  rfl

/-- What a call has written with its next step. -/
theorem advance_wrote (h : m.Steady) {who : OsThread} {a : Activity} {rest : List Activity}
    (hact : m.active who.id = a :: rest) :
    ∃ drops, Wrote a.stage.epoch? m (m.step (.advance who)) (m.news (.advance who)) drops
      (a.call.told m.tracer a.stage) := by
  have hover := h.going who.id a (by rw [hact]; exact List.mem_cons_self)
  obtain ⟨l, stage, hgoes, heq⟩ := advance_goes hact
  obtain ⟨news, drops, hposts⟩ := hgoes.posts
  have hsettle := hposts.trans
    (a.settle_posts a.stage.epoch? l.tracer (hgoes.result_ne_queue hover))
  simp only [List.append_nil, Nat.add_zero] at hsettle
  have hw : Wrote a.stage.epoch? m (m.step (.advance who)) news drops
      (a.call.told m.tracer a.stage) := by
    rw [heq]
    exact ⟨hsettle, by simp [put, hgoes.suspension], rfl, rfl⟩
  rw [news_eq _ hw.posts.records]
  exact ⟨drops, hw⟩

/-- The first step of a call writes nothing. -/
theorem call_wrote (m : Machine) (who : OsThread) (c : Call) (counted : Bool) :
    Wrote none m (m.step (.call who c counted)) [] 0 [] := by
  by_cases hr : m.ready who.id = true
  case neg => rw [step, Machine.call, if_neg hr]; exact ⟨.refl _, rfl, rfl, rfl⟩
  obtain ⟨l, stage, hgoes, heq⟩ := call_goes c counted hr
  have hl : l.tracer = m.tracer := by cases hgoes <;> rfl
  have hsettle := Activity.settle_posts none ⟨c, counted, .called⟩ m.tracer
    (hgoes.result_ne_queue rfl)
  rw [heq, hl]
  exact ⟨hsettle, by simp [put], by simp [put], by simp [put]⟩

theorem flow (h : m.Steady) (x : Move) : m.Flow x (m.step x) (m.news x) := by
  have hquiet : ∀ {x : Move}, m.controls x = false → Wrote none m (m.step x) [] 0 [] →
      m.Flow x (m.step x) (m.news x) :=
    fun hx hw => by rw [news_eq _ hw.posts.records]; exact .quiet hx hw
  have hsame : ∀ {x : Move}, m.controls x = false → m.step x = m →
      m.Flow x (m.step x) (m.news x) :=
    fun hx heq => hquiet hx (by rw [heq]; exact ⟨.refl _, rfl, rfl, rfl⟩)
  cases x with
  | call who c counted => exact hquiet rfl (call_wrote m who c counted)
  | advance who =>
    rcases hact : m.active who.id with _ | ⟨a, rest⟩
    · exact hsame rfl (by simp only [step, Machine.advance, hact])
    · obtain ⟨drops, hw⟩ := h.advance_wrote hact
      exact .advance hact hw
  | suspend =>
    rcases m.suspend_cases with heq | ⟨hs, heq⟩
    · cases hs : m.tracer.suspension.suspended with
      | true => exact hsame (by simp [controls, hs]) heq
      | false =>
        have := suspensions_suspend hs
        rw [heq] at this
        omega
    have hopen : m.tracer.queue.isClosed = false := h.isClosed.trans hs
    simp only [Queue.close, hopen, Bool.false_eq_true, ↓reduceIte] at heq
    rw [news_eq [m.tracer.marker .threadsSuspended] (by simp [step, heq, Queue.push])]
    simp only [step, heq]
    exact .suspend hs
  | resume =>
    rcases m.resume_cases with heq | ⟨hs, heq⟩
    · cases hs : m.tracer.suspension.suspended with
      | false => exact hsame (by simp [controls, hs]) heq
      | true =>
        have := suspended_resume hs
        rw [heq, hs] at this
        cases this
    have hclosed : m.tracer.queue.isClosed = true := h.isClosed.trans hs
    simp only [Queue.reopen, hclosed, ↓reduceIte] at heq
    rw [news_eq [m.tracer.marker .threadsResumed] (by simp [step, heq, Queue.push])]
    simp only [step, heq]
    exact .resume hs
  | reset l =>
    rcases hr : m.tracer.reset l with e | t
    · have hs := Tracer.reset_eq_error hr
      exact hsame (by simp [controls, hs]) (by simp only [step, Machine.reset, hr])
    · obtain ⟨hs, rfl⟩ := Tracer.reset_eq_ok hr
      rw [news_eq_nil (by simp [step, Machine.reset, hr, Queue.reset])]
      simp only [step, Machine.reset, hr]
      exact .reset hs
  | drain =>
    rw [news_eq_nil (by simp [step, Machine.drain, Tracer.drain, Queue.drain])]
    exact .drain
  | notify => exact hquiet rfl ⟨Tracer.notify_posts, rfl, rfl, rfl⟩
  | receive => exact hquiet rfl ⟨.nothing rfl rfl rfl rfl, rfl, rfl, rfl⟩
  | exclude i => exact hquiet rfl ⟨.nothing rfl rfl rfl rfl, rfl, rfl, rfl⟩
  | look i => exact hquiet rfl ⟨.nothing rfl rfl rfl rfl, rfl, rfl, rfl⟩
  | elsewhere i r =>
    by_cases hr : r.roster = m.tracer.roster.id
    · exact hsame rfl (by simp only [step, hr, ↓reduceIte])
    · exact hquiet rfl (by
        simp only [step, hr, ↓reduceIte]
        exact ⟨.nothing rfl rfl rfl rfl, rfl, rfl, rfl⟩)

theorem going_proceed (h : ∀ i, ∀ a ∈ m.active i, a.stage.isOver = false) (who : OsThread)
    (a : Activity) {rest : List Activity} (hrest : ∀ b ∈ rest, b ∈ m.active who.id) (i : Nat) :
    ∀ b ∈ (m.proceed who a rest).active i, b.stage.isOver = false := by
  obtain ⟨l, stage, -, hm⟩ := m.proceed_goes who a rest
  rw [hm]
  intro b hb
  simp only [put, Function.update_apply] at hb
  split at hb
  · rcases List.mem_append.mp hb with hb | hb
    · rw [(Activity.eq_of_mem_next hb).1, (Activity.eq_of_mem_next hb).2]
    · exact h _ b (hrest b hb)
  · exact h i b hb

theorem going_step (h : m.Steady) (x : Move) (i : Nat) :
    ∀ a ∈ (m.step x).active i, a.stage.isOver = false := by
  cases x with
  | call who c counted =>
    simp only [Machine.step, Machine.call]
    split
    · refine going_proceed (by simpa using h.going) who _ (fun b hb => ?_) i
      rwa [note_active]
    · exact h.going i
  | advance who =>
    simp only [Machine.step, Machine.advance]
    split
    · exact h.going i
    · rename_i a rest hact
      exact going_proceed h.going who a (fun b hb => by rw [hact]; exact .tail a hb) i
  | suspend => rcases m.suspend_cases with heq | ⟨-, heq⟩ <;> simpa [Machine.step, heq] using h.going i
  | resume => rcases m.resume_cases with heq | ⟨-, heq⟩ <;> simpa [Machine.step, heq] using h.going i
  | reset l => simp only [Machine.step, Machine.reset]; split <;> exact h.going i
  | elsewhere j r => simp only [Machine.step]; split <;> exact h.going i
  | _ => exact h.going i

theorem step (h : m.Steady) (x : Move) : (m.step x).Steady := by
  have hgoing := h.going_step x
  have hflow := h.flow x
  generalize m.step x = m', m.news x = news at hgoing hflow
  cases hflow with
  | quiet _ hw | advance _ hw =>
    exact ⟨hgoing, by rw [hw.posts.closedFrom, hw.suspension, h.closedFrom],
      by rw [hw.suspension, hw.suspensions, h.epoch]⟩
  | suspend hs =>
    refine ⟨hgoing, rfl, ?_⟩
    simp only [h.epoch, UInt64.ofNat_add]
    rfl
  | resume hs => exact ⟨hgoing, by simp [Queue.push], h.epoch⟩
  | reset hs => exact ⟨hgoing, h.closedFrom, h.epoch⟩
  | drain => exact ⟨hgoing, h.closedFrom, h.epoch⟩

theorem run (h : m.Steady) (xs : List Move) : (m.run xs).Steady := by
  induction xs generalizing m with
  | nil => exact h
  | cons x xs ih => exact ih (h.step x)

end Steady

/-- Nothing that the queue has let in is lost, and no order is changed. -/
theorem Steady.history_step (h : m.Steady) (x : Move) :
    (m.step x).history = m.history ++ m.news x := by
  have hflow := h.flow x
  generalize m.step x = m', m.news x = news at hflow
  cases hflow with
  | quiet _ hw | advance _ hw =>
    rw [history, hw.past, hw.posts.records, ← List.append_assoc, history]
  | suspend | resume => simp [history, Queue.push]
  | reset | drain => simp [history, Queue.reset, Machine.drain, Tracer.drain, Queue.drain]

end Machine

end MethodTrace
