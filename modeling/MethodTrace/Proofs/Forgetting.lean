import MethodTrace.Proofs.Admission
import MethodTrace.Proofs.Outcome

/-!
# Memory is only a shortcut

What a thread remembers spares it a lookup and makes no other difference (`step_forget`), as long as
it remembers what is right, or that it is denied when it would be denied anew (`Tracer.Bars`). It
always does unless a thread is excluded that is registered (`Machine.Aware`).
-/

namespace MethodTrace

/-- A thread that is not registered, and will not be before a reset. -/
def Tracer.Bars (t : Tracer) (i : Nat) : Prop := t.roster.slot? i = none ∧ t.Denies i

/-! ### A step of a call -/

namespace Call
variable {c : Call} {who : OsThread} {t : Tracer} {memory : Memory} {epoch : UInt64}

/-- What becomes of a call that has found out how its thread stands. -/
def place (c : Call) (who : OsThread) (t : Tracer) (epoch : UInt64) : Standing → Tracer × Stage
  | .registered slot => (t, .enrolled epoch slot false)
  | .denied => (t, .returned (if c.hook.enrolls then .error .admissionDenied else .ok ()))
  | .unregistered =>
    if c.hook.enrolls then
      let r := t.roster.register who t.quota none
      ({ t with roster := r.roster, quota := r.quota },
        match r.slot with
        | some slot => .enrolled epoch slot true
        | none => .returned (.error .admissionDenied))
    else (t, .returned (.ok ()))

/-- Registration does not depend on what the thread remembers. -/
theorem register_forget (who : OsThread) (r : Roster) (q : Quota) (memory : Memory) :
    (r.register who q memory).roster = (r.register who q none).roster ∧
      (r.register who q memory).quota = (r.register who q none).quota ∧
      (r.register who q memory).slot = (r.register who q none).slot := by
  unfold Roster.register
  split
  · exact ⟨rfl, rfl, rfl⟩
  · split <;> exact ⟨rfl, rfl, rfl⟩

theorem enroll_eq (c : Call) (who : OsThread) (t : Tracer) (memory : Memory) (epoch : UInt64) :
    (c.enroll who ⟨t, memory⟩ epoch).1.tracer =
        (c.place who t epoch (t.roster.consult who.id memory).1).1 ∧
      (c.enroll who ⟨t, memory⟩ epoch).2 =
        (c.place who t epoch (t.roster.consult who.id memory).1).2 := by
  rcases h : t.roster.consult who.id memory with ⟨slot | _ | _, memory'⟩
  · simp only [enroll, h, place, and_self]
  · obtain ⟨hroster, hquota, hslot⟩ := register_forget who t.roster t.quota memory'
    cases he : c.hook.enrolls with
    | false => simp [enroll, h, place, he]
    | true =>
      rcases hs : (t.roster.register who t.quota none).slot with _ | slot <;>
        simp only [enroll, h, place, he, ↓reduceIte, hroster, hquota, hslot, hs, and_self]
  · simp only [enroll, h, place, and_self]

/-- A thread that is barred is denied anew when it asks. -/
theorem place_lookup (h : t.Bars who.id) (epoch : UInt64) :
    c.place who t epoch (t.roster.lookup who.id) = c.place who t epoch .denied := by
  obtain ⟨hslot, hdenies⟩ := h
  by_cases he : who.id ∈ t.roster.excluded
  · have hlookup : t.roster.lookup who.id = .denied := by
      simp only [Roster.lookup, show t.roster.members.lookup who.id = none from hslot, he, ↓reduceIte]
    rw [hlookup]
  · have hlookup : t.roster.lookup who.id = .unregistered := by
      simp only [Roster.lookup, show t.roster.members.lookup who.id = none from hslot, he, ↓reduceIte]
    have hroom : t.quota.remaining = 0 := hdenies.resolve_right he
    rw [hlookup, place, place]
    split
    · rcases Roster.register_of_slot?_eq_none hslot t.quota none with ⟨q, hq, -, -⟩ | ⟨-, heq⟩
      · simp [Quota.take, hroom] at hq
      · rw [heq]
    · rfl

theorem advance_forget (hm : t.roster.Minds (t.Bars who.id) who.id memory) (stage : Stage) :
    (c.advance who ⟨t, memory⟩ stage).1.tracer = (c.advance who ⟨t, none⟩ stage).1.tracer ∧
      (c.advance who ⟨t, memory⟩ stage).2 = (c.advance who ⟨t, none⟩ stage).2 := by
  cases stage with
  | running epoch =>
    obtain ⟨htracer, hstage⟩ := c.enroll_eq who t memory epoch
    obtain ⟨htracer', hstage'⟩ := c.enroll_eq who t none epoch
    have hplace : c.place who t epoch (t.roster.consult who.id memory).1 =
        c.place who t epoch (t.roster.consult who.id none).1 := by
      change _ = c.place who t epoch (t.roster.lookup who.id)
      rcases hc : t.roster.consult who.id memory with ⟨st, memory'⟩
      rcases (hm.consult hc).1 with rfl | ⟨rfl, hbars⟩
      · rfl
      · exact (place_lookup hbars epoch).symm
    simp only [advance]
    rw [htracer, hstage, htracer', hstage', hplace]
    exact ⟨rfl, rfl⟩
  | called | enrolled | cleared => simp only [advance]; split <;> exact ⟨rfl, rfl⟩
  | _ => exact ⟨rfl, rfl⟩

end Call

namespace Tracer
variable {t : Tracer} {i : Nat} {memory : Memory}

theorem look_of_registered {slot : Slot}
    (h : (t.roster.consult i memory).1 = .registered slot) :
    (t.look i memory).1 = t.roster.stack? slot := by
  unfold look
  generalize t.roster.consult i memory = x at h
  obtain ⟨st, memory'⟩ := x
  cases h
  rfl

theorem look_of_not_registered (h : ∀ slot, (t.roster.consult i memory).1 ≠ .registered slot) :
    (t.look i memory).1 = none := by
  unfold look
  generalize t.roster.consult i memory = x at h
  obtain ⟨slot | _ | _, memory'⟩ := x
  · exact absurd rfl (h slot)
  · rfl
  · rfl

/-- A thread sees its own stack. -/
theorem look_eq_stackOf (hm : t.roster.Minds (t.Bars i) i memory) :
    (t.look i memory).1 = t.roster.stackOf i := by
  rcases hc : t.roster.consult i memory with ⟨st, memory'⟩
  have hst : (t.roster.consult i memory).1 = st := by rw [hc]
  have hminds := (hm.consult hc).1
  rcases hl : t.roster.slot? i with _ | slot
  · rw [Roster.stackOf_of_slot?_eq_none hl]
    refine look_of_not_registered fun slot heq => ?_
    rw [hst] at heq
    rcases hminds with rfl | ⟨rfl, -⟩
    · rw [Roster.lookup_eq_registered_iff, hl] at heq
      cases heq
    · cases heq
  · rw [Roster.stackOf_of_slot? hl]
    refine look_of_registered (hst.trans ?_)
    rcases hminds with rfl | ⟨-, hslot, -⟩
    · exact Roster.lookup_eq_registered_iff.mpr hl
    · rw [hslot] at hl
      cases hl

theorem look_none (t : Tracer) (i : Nat) : (t.look i none).1 = t.roster.stackOf i :=
  look_eq_stackOf fun _ hst => by cases hst

end Tracer

/-! ### Moves -/

namespace Machine
variable {m : Machine} {n : Nat}

def forget (m : Machine) : Machine := { m with memory := fun _ => none }

/-- Every thread remembers what is right, or that it is denied as it would be without remembering. -/
abbrev Aware (m : Machine) (n : Nat) : Prop := m.Mindful n m.tracer.Bars

theorem forget_note (m : Machine) (i : Nat) (c : Call) :
    (m.note i c).forget = m.forget.note i c := by
  unfold note
  split <;> rename_i h <;> simp [forget] at h ⊢ <;> simp [h]

theorem proceed_forget {who : OsThread} {a : Activity} {rest : List Activity}
    (hm : m.tracer.roster.Minds (m.tracer.Bars who.id) who.id (m.memory who.id)) :
    (m.proceed who a rest).forget = (m.forget.proceed who a rest).forget := by
  obtain ⟨htracer, hstage⟩ := a.call.advance_forget hm a.stage
  simp only [proceed, put, forget]
  rw [htracer, hstage]

theorem step_forget (h : m.Aware n) (x : Move) : (m.step x).forget = (m.forget.step x).forget := by
  cases x with
  | call who c counted =>
    have hready : m.forget.ready who.id = m.ready who.id := rfl
    simp only [step, call, hready]
    split
    · have hminds : (m.note who.id c).tracer.roster.Minds ((m.note who.id c).tracer.Bars who.id)
          who.id ((m.note who.id c).memory who.id) := by simpa using h.minds who.id
      rw [proceed_forget hminds, forget_note]
      rfl
    · rfl
  | advance who =>
    have hactive : m.forget.active = m.active := rfl
    simp only [step, advance, hactive]
    split
    · rfl
    · exact proceed_forget (h.minds who.id)
  | suspend => simp only [step, suspend, forget]; split <;> rfl
  | resume => simp only [step, resume, forget]; split <;> rfl
  | reset l => simp only [step, reset, forget]; split <;> rfl
  | elsewhere i r =>
    have htracer : m.forget.tracer = m.tracer := rfl
    simp only [step, htracer]
    split <;> rfl
  | _ => rfl

theorem outcome_forget (h : m.Aware n) (x : Move) : m.outcome x = m.forget.outcome x := by
  cases x with
  | call who c counted =>
    simp only [outcome]
    rw [(c.advance_forget (h.minds who.id) .called).2]
    rfl
  | advance who =>
    simp only [outcome, forget]
    split
    · rfl
    · rename_i a rest _
      rw [(a.call.advance_forget (h.minds who.id) a.stage).2]
  | look i =>
    exact congrArg Outcome.stack ((Tracer.look_eq_stackOf (h.minds i)).trans (Tracer.look_none ..).symm)
  | _ => rfl

/-! ### Runs -/

/-- Who is barred stays barred up to the next reset. -/
theorem bars_step {x : Move} (hx : m.resets x = false) {i : Nat} (h : m.tracer.Bars i) :
    (m.step x).tracer.Bars i := by
  obtain ⟨hslot, hdenies⟩ := h
  have hexcluded := m.mem_excluded_step x i
  have hseats := m.seats_step x
  generalize m.step x = m' at hexcluded hseats
  have hkeep : i ∈ m.tracer.roster.excluded → i ∈ m'.tracer.roster.excluded :=
    fun he => hexcluded.mpr (List.mem_append_right _ he)
  cases hseats with
  | same _ hr hq => exact ⟨(hr.slot? i).trans hslot, hdenies.imp (fun h => by rw [hq, h]) hkeep⟩
  | @enlist who a rest epoch q m' _ _ _ _ hq hr hq' he =>
    have hi : i ∈ m.tracer.roster.excluded := hdenies.resolve_left fun h => by
      simp [Quota.take, h] at hq
    have hne : i ≠ who.id := fun heq => he (heq ▸ hi)
    exact ⟨by rw [hr, Roster.slot?_enlist_of_ne hne, hslot], .inr (hkeep hi)⟩
  | clear hs => rw [resets, hs] at hx; cases hx

/-- The thread that a move excludes is not registered. -/
def Spared (m : Machine) (x : Move) : Prop :=
  ∀ i, x = .exclude i → m.tracer.roster.slot? i = none

instance (m : Machine) (x : Move) : Decidable (m.Spared x) :=
  match x with
  | .exclude i => decidable_of_iff (m.tracer.roster.slot? i = none)
      ⟨fun h j hj => by cases hj; exact h, fun h => h i rfl⟩
  | .call .. | .advance _ | .suspend | .resume | .reset _ | .drain | .notify | .receive | .look _
  | .elsewhere .. => isTrue fun _ h => by cases h

namespace Aware

theorem new (id : Nat) (s : Settings) (hasHandler : Bool) :
    (Machine.new (.new id s hasHandler)).Aware 0 := Mindful.new id s hasHandler _

theorem step (h : m.Aware n) {x : Move} (hx : m.Spared x)
    (hn : (if m.resets x then n + 1 else n) < UInt64.size) :
    (m.step x).Aware (if m.resets x then n + 1 else n) := by
  refine Mindful.step h x hn (fun hresets i => bars_step hresets) (fun i hi => ?_)
    fun who a rest epoch hxw hact hstage hc hslot hdenies => ?_
  · have hslot := hx i hi
    subst hi
    exact ⟨hslot, .inr ((m.mem_excluded_step (.exclude i) i).mpr List.mem_cons_self)⟩
  · subst hxw
    exact bars_step rfl ⟨hslot, hdenies⟩

end Aware

end Machine

end MethodTrace
