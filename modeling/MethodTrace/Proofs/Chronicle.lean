import Mathlib.Data.List.Forall2
import MethodTrace.Proofs.Flow

/-!
# Chronicles

A run with its records, each with who wrote it and what was in progress then. Moves are counted, and
a call is known by its thread and the moment at which it began. A chronicle has all the records that
the queue has let in, in their order, and markers are written by no call (`Faithful`).
-/

namespace MethodTrace

inductive Writer where
  | control
  /-- The call of a thread that began at a moment. -/
  | hook (thread began : Nat)
deriving DecidableEq

structure Entry where
  record : Record
  writer : Writer
  moment : Nat
  /-- The state in which the record was written, and when its calls in progress had begun, the
  innermost of every thread first. -/
  state : Machine
  begun : Nat → List Nat

structure Chronicle where
  machine : Machine
  /-- How many moves there have been. -/
  moment : Nat
  begun : Nat → List Nat
  entries : List Entry
  /-- How often all has been reset. -/
  resets : Nat
  /-- The moment after the last reset. -/
  lastReset : Nat

/-- When the calls of a thread began of which `n` are left: at most one has begun now, or those that
were innermost have returned. -/
def timed (now : Nat) (begun : List Nat) (n : Nat) : List Nat :=
  if begun.length < n then now :: begun else begun.drop (begun.length - n)

theorem timed_self (now : Nat) (begun : List Nat) : timed now begun begun.length = begun := by
  simp [timed]

theorem timed_succ (now : Nat) (begun : List Nat) :
    timed now begun (begun.length + 1) = now :: begun := by
  simp [timed]

theorem timed_pred (now t : Nat) (begun : List Nat) :
    timed now (t :: begun) begun.length = begun := by
  have hle : ¬ (t :: begun).length < begun.length := by rw [List.length_cons]; omega
  rw [timed, if_neg hle]
  simp

theorem timed_subset {now : Nat} {begun : List Nat} {n : Nat} (h : n ≤ begun.length) :
    timed now begun n ⊆ begun := by
  rw [timed, if_neg (Nat.not_lt_of_le h)]
  exact List.drop_subset _ _

theorem lt_of_mem_timed {now : Nat} {begun : List Nat} {n t : Nat} (h : ∀ t ∈ begun, t < now)
    (ht : t ∈ timed now begun n) : t < now + 1 := by
  unfold timed at ht
  split at ht
  · rcases List.mem_cons.mp ht with rfl | ht
    · exact Nat.lt_succ_self _
    · exact Nat.lt_succ_of_lt (h t ht)
  · exact Nat.lt_succ_of_lt (h t (List.mem_of_mem_drop ht))

/-- What holds of the calls of a thread and their beginnings holds after one of them has gone on. -/
theorem forall₂_timed_next {P : Activity → Nat → Prop} {a : Activity} {rest : List Activity}
    {begun : List Nat} {stage : Stage} (now : Nat) (h : List.Forall₂ P (a :: rest) begun)
    (hP : ∀ t, begun.head? = some t → P { a with stage := stage } t) :
    List.Forall₂ P (a.next stage ++ rest)
      (timed now begun (a.next stage ++ rest).length) := by
  rcases h with _ | @⟨_, t, _, begun, h, hrest⟩
  have hlength := hrest.length_eq
  cases hover : stage.isOver with
  | true =>
    rw [Activity.next_of_isOver hover, List.nil_append, hlength, timed_pred]
    exact hrest
  | false =>
    rw [Activity.next_of_not_isOver hover, List.singleton_append, List.length_cons, hlength, ← List.length_cons (a := t),
      timed_self]
    exact .cons (hP t rfl) hrest

/-- What holds of the calls of a thread and their beginnings holds after it has called a hook. -/
theorem forall₂_timed_call {P : Activity → Nat → Prop} {calls : List Activity} {begun : List Nat}
    (now : Nat) (a : Activity) (stage : Stage) (h : List.Forall₂ P calls begun)
    (hP : P { a with stage := stage } now) :
    List.Forall₂ P (a.next stage ++ calls)
      (timed now begun (a.next stage ++ calls).length) := by
  have hlength := h.length_eq
  cases hover : stage.isOver with
  | true =>
    rw [Activity.next_of_isOver hover, List.nil_append, hlength, timed_self]
    exact h
  | false =>
    rw [Activity.next_of_not_isOver hover, List.singleton_append, List.length_cons, hlength, timed_succ]
    exact .cons hP h

namespace Machine

/-- What a move does to the calls in progress. -/
inductive Calls (m : Machine) : Move → Machine → Prop where
  | same {x : Move} {m' : Machine} (h : m'.active = m.active) : Calls m x m'
  | call {who : OsThread} {c : Call} {counted : Bool} {l : Local} {stage : Stage} {m' : Machine}
    (h : c.Goes who ⟨m.tracer, m.memory who.id⟩ .called l stage)
    (hactive : m'.active = Function.update m.active who.id
      ((⟨c, counted, .called⟩ : Activity).next stage ++ m.active who.id)) :
    Calls m (.call who c counted) m'
  | advance {who : OsThread} {a : Activity} {rest : List Activity} {l : Local} {stage : Stage}
    {m' : Machine} (hact : m.active who.id = a :: rest)
    (h : a.call.Goes who ⟨m.tracer, m.memory who.id⟩ a.stage l stage)
    (hactive : m'.active = Function.update m.active who.id (a.next stage ++ rest))
    (hroster : m'.tracer.roster = l.tracer.roster) : Calls m (.advance who) m'

theorem calls_step (m : Machine) (x : Move) : m.Calls x (m.step x) := by
  cases x with
  | call who c counted =>
    by_cases hr : m.ready who.id = true
    · obtain ⟨l, stage, hgoes, heq⟩ := call_goes c counted hr
      exact .call hgoes (by rw [heq, put, note_active])
    · exact .same (by rw [step, Machine.call, if_neg hr])
  | advance who =>
    rcases hact : m.active who.id with _ | ⟨a, rest⟩
    · exact .same (by rw [step, Machine.advance, hact])
    · obtain ⟨l, stage, hgoes, heq⟩ := advance_goes hact
      rw [heq]
      exact .advance hact hgoes rfl (by simp [put])
  | suspend => rcases m.suspend_cases with heq | ⟨-, heq⟩ <;> rw [step, heq] <;> exact .same rfl
  | resume => rcases m.resume_cases with heq | ⟨-, heq⟩ <;> rw [step, heq] <;> exact .same rfl
  | reset l => rw [step, Machine.reset]; split <;> exact .same rfl
  | elsewhere i r => rw [step]; split <;> exact .same rfl
  | _ => exact .same rfl

end Machine

namespace Chronicle

def new (t : Tracer) : Chronicle := ⟨.new t, 0, fun _ => [], [], 0, 0⟩

/-- Who writes what a move puts into the queue. -/
def writer (h : Chronicle) : Move → Writer
  | .advance who => (h.begun who.id).head?.elim .control (.hook who.id)
  | _ => .control

def step (h : Chronicle) (x : Move) : Chronicle where
  machine := h.machine.step x
  moment := h.moment + 1
  begun i := timed h.moment (h.begun i) ((h.machine.step x).active i).length
  entries := h.entries ++
    (h.machine.news x).map fun r => ⟨r, h.writer x, h.moment, h.machine, h.begun⟩
  resets := if h.machine.resets x then h.resets + 1 else h.resets
  lastReset := if h.machine.resets x then h.moment + 1 else h.lastReset

def run (h : Chronicle) (xs : List Move) : Chronicle := xs.foldl step h

@[simp] theorem run_machine (h : Chronicle) (xs : List Move) :
    (h.run xs).machine = h.machine.run xs := by
  induction xs generalizing h with
  | nil => rfl
  | cons x xs ih => exact ih (h.step x)

variable {h : Chronicle}

/-- What holds of the calls in progress and their beginnings holds after a move if it does of the
call that goes on. -/
theorem forall₂_step {P Q : Nat → Activity → Nat → Prop} (x : Move)
    (hold : ∀ i, List.Forall₂ (P i) (h.machine.active i) (h.begun i))
    (hkeep : ∀ i a t, P i a t → Q i a t)
    (hcall : ∀ who c counted l stage, x = .call who c counted →
      c.Goes who ⟨h.machine.tracer, h.machine.memory who.id⟩ .called l stage →
      Q who.id ⟨c, counted, stage⟩ h.moment)
    (hnext : ∀ who a rest t l stage, x = .advance who → h.machine.active who.id = a :: rest →
      (h.begun who.id).head? = some t →
      a.call.Goes who ⟨h.machine.tracer, h.machine.memory who.id⟩ a.stage l stage →
      (h.machine.step x).tracer.roster = l.tracer.roster → Q who.id { a with stage := stage } t)
    (i : Nat) : List.Forall₂ (Q i) ((h.step x).machine.active i) ((h.step x).begun i) := by
  have hkept := fun i => (hold i).imp (hkeep i)
  have hcalls := h.machine.calls_step x
  simp only [step]
  generalize h.machine.step x = m' at hcalls hnext ⊢
  cases hcalls with
  | same heq =>
    rw [heq, (hkept i).length_eq, timed_self]
    exact hkept i
  | @call who c counted l stage _ hgoes heq =>
    rw [heq]
    by_cases hi : i = who.id
    · subst hi
      rw [Function.update_self]
      exact forall₂_timed_call h.moment _ stage (hkept who.id)
        (hcall who c counted l stage rfl hgoes)
    · rw [Function.update_of_ne hi, (hkept i).length_eq, timed_self]
      exact hkept i
  | @advance who a rest l stage _ hact hgoes heq hroster =>
    rw [heq]
    by_cases hi : i = who.id
    · subst hi
      rw [Function.update_self]
      exact forall₂_timed_next h.moment (hact ▸ hkept who.id)
        fun t ht => hnext who a rest t l stage rfl hact ht hgoes hroster
    · rw [Function.update_of_ne hi, (hkept i).length_eq, timed_self]
      exact hkept i

structure Faithful (h : Chronicle) : Prop where
  steady : h.machine.Steady
  history : h.entries.map Entry.record = h.machine.history
  /-- The beginnings are those of the calls in progress, and they are over. -/
  begun : ∀ i, (h.begun i).length = (h.machine.active i).length
  begun_lt : ∀ i, ∀ t ∈ h.begun i, t < h.moment
  writer : ∀ e ∈ h.entries, e.record.isMarker = true → e.writer = .control
  moment : ∀ e ∈ h.entries, e.moment < h.moment
  entry : ∀ e ∈ h.entries, ∀ i, (e.begun i).length = (e.state.active i).length ∧
    ∀ t ∈ e.begun i, t < e.moment

namespace Faithful

theorem new (id : Nat) (s : Settings) (hasHandler : Bool) :
    (Chronicle.new (.new id s hasHandler)).Faithful where
  steady := .new id s hasHandler
  history := rfl
  begun _ := rfl
  begun_lt _ := List.forall_mem_nil _
  writer := List.forall_mem_nil _
  moment := List.forall_mem_nil _
  entry := List.forall_mem_nil _

/-- What the beginnings of calls say alone. -/
theorem forall₂ (hf : h.Faithful) (i : Nat) {P : Nat → Prop} (hP : ∀ t ∈ h.begun i, P t) :
    List.Forall₂ (fun _ t => P t) (h.machine.active i) (h.begun i) := by
  rw [List.forall₂_iff_get]
  exact ⟨(hf.begun i).symm, fun _ _ _ => hP _ (List.get_mem _ _)⟩

/-- A call in progress has begun. -/
theorem exists_begun (hf : h.Faithful) {i : Nat} {a : Activity} {rest : List Activity}
    (hact : h.machine.active i = a :: rest) : ∃ t begun, h.begun i = t :: begun := by
  have hlength := hf.begun i
  rw [hact] at hlength
  exact List.exists_cons_of_length_eq_add_one hlength

theorem writer_advance {who : OsThread} {t : Nat} {begun : List Nat}
    (ht : h.begun who.id = t :: begun) : h.writer (.advance who) = .hook who.id t := by
  rw [Chronicle.writer, ht]
  rfl

/-- What a call writes is no marker. -/
theorem writer_step (hf : h.Faithful) (x : Move) {r : Record} (hr : r ∈ h.machine.news x)
    (hm : r.isMarker = true) : h.writer x = .control := by
  have hflow := hf.steady.flow x
  generalize h.machine.step x = m', h.machine.news x = news at hr hflow
  cases hflow with
  | quiet _ hw | advance _ hw =>
    have := hw.posts.unmarked r hr
    rw [hm] at this
    cases this
  | suspend | resume => rfl
  | reset | drain => cases hr

theorem step (hf : h.Faithful) (x : Move) : (h.step x).Faithful where
  steady := hf.steady.step x
  history := by
    simp [Chronicle.step, hf.history, hf.steady.history_step, Function.comp_def]
  begun i :=
    (forall₂_step (Q := fun _ _ _ => True) x (fun i => hf.forall₂ i fun _ _ => trivial)
      (fun _ _ _ => id) (fun _ _ _ _ _ _ _ => trivial) (fun _ _ _ _ _ _ _ _ _ _ _ => trivial)
      i).length_eq.symm
  begun_lt i t ht := lt_of_mem_timed (hf.begun_lt i) ht
  writer e he hm := by
    rcases List.mem_append.mp he with he | he
    · exact hf.writer e he hm
    · obtain ⟨r, hr, rfl⟩ := List.mem_map.mp he
      exact hf.writer_step x hr hm
  moment e he := by
    rcases List.mem_append.mp he with he | he
    · exact Nat.lt_succ_of_lt (hf.moment e he)
    · obtain ⟨r, -, rfl⟩ := List.mem_map.mp he
      exact Nat.lt_succ_self _
  entry e he := by
    rcases List.mem_append.mp he with he | he
    · exact hf.entry e he
    · obtain ⟨r, hr, rfl⟩ := List.mem_map.mp he
      exact fun i => ⟨hf.begun i, hf.begun_lt i⟩

theorem run (hf : h.Faithful) (xs : List Move) : (h.run xs).Faithful := by
  induction xs generalizing h with
  | nil => exact hf
  | cons x xs ih => exact ih (hf.step x)

end Faithful

end Chronicle

end MethodTrace
