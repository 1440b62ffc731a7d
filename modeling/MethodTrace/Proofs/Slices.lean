import MethodTrace.Proofs.Codec
import MethodTrace.Proofs.NestedRuns
import MethodTrace.Timeline

/-!
# What trace viewers see of records

Every record that the tracer writes decodes to the event that it was written for (`decode_encode`), so
what becomes of it in a timeline is known but for times and values: `Timeline.shows`. The reference of
nested calls becomes slices that nest, whatever the depth limit (`bracketed_referenceOf`): a limit
leaves both ends of a frame out or none, and the ends of a frame are of one category.
-/

namespace MethodTrace

/-! ### Events of records -/

namespace Event

theorem thread_of_decode {r : Record} {e : Event} (h : decode r = .ok e) : e.thread = ⟨r.thread⟩ :=
  (decode_eq_ok_iff.mp h).2.2.2.1

theorem isOf_of_decode {r : Record} {e : Event} (h : decode r = .ok e) (k : Kind) :
    r.isOf k = decide (e.kind = k) :=
  Record.isOf_eq (by simp [Record.isOf, (decode_eq_ok_iff.mp h).1]) k

theorem decode_timeless (r : Record) :
    decode r.timeless = (decode r).map fun e => { e with timestamp := ⟨0⟩ } := by
  have hkind : r.timeless.kind? = r.kind? := rfl
  have hret : r.timeless.returnValue = r.returnValue := rfl
  rw [decode, decode, hkind, hret]
  rcases r.kind? with _ | k
  · rfl
  · rcases r.returnValue with _ | ret <;> rfl

end Event

/-! ### Entries but for times and values -/

theorem Kind.eq_of_phase_eq_none {k : Kind} (h : k.phase = none) : k = .threadCreated := by
  cases k <;> first | rfl | cases h

theorem Kind.ne_of_phase_eq_some {k : Kind} {phase : Phase} (h : k.phase = some phase) :
    k ≠ .threadCreated := by
  rintro rfl
  cases h

namespace Timeline
variable {t t' : Timeline}

/-- The entry but for its time and its value. -/
def Entry.bare (e : Entry) : Entry := { e with time := ⟨0⟩, ret := none }

/-- The entry that becomes of a record, but for its time and its value. -/
def shows (t : Timeline) (r : Record) : Option Entry :=
  match Event.decode r with
  | .ok e => Option.map Entry.bare <| t.entry? e
  | .error _ => none

theorem shows_encode (t : Timeline) (e : Event) :
    t.shows e.encode = e.kind.phase.map fun phase =>
      ⟨phase, e.kind.category, if e.kind.isControl then e.kind.name else t.methodName e.method,
        e.thread, ⟨0⟩, none⟩ := by
  rw [shows, Event.decode_encode]
  simp only [Option.map_map, entry?]
  rfl

end Timeline

/-! ### Slices that nest -/

/-- Brackets that match, each closing one with the one that it closes by their key. -/
inductive Bracketed {κ : Type} : List (Bool × κ) → Prop
  | nil : Bracketed []
  | append {l l' : List (Bool × κ)} (h : Bracketed l) (h' : Bracketed l') : Bracketed (l ++ l')
  | wrap (k : κ) {l : List (Bool × κ)} (h : Bracketed l) :
    Bracketed ((true, k) :: (l ++ [(false, k)]))

/-- The end of a slice, by name and category, if the entry is one. -/
def Timeline.Entry.bracket? (e : Timeline.Entry) : Option (Bool × String × String) :=
  match e.phase with
  | .begins => some (true, e.name, e.category)
  | .ends => some (false, e.name, e.category)
  | .instant => none

/-- The ends of slices that become of records. -/
def Timeline.brackets (t : Timeline) (rs : List Record) : List (Bool × String × String) :=
  rs.filterMap fun r => (t.shows r).bind Entry.bracket?

namespace Timeline
variable (t : Timeline) (w : Scribe)

theorem brackets_append (rs rs' : List Record) :
    t.brackets (rs ++ rs') = t.brackets rs ++ t.brackets rs' :=
  List.filterMap_append

theorem brackets_entry {k : Kind} (hk : k.isEntry = true) (m : MethodId)
    (ret : Option ReturnValue) :
    t.brackets [w.record k m ret] = [(true, t.methodName m, k.category)] := by
  simp only [brackets, Scribe.record, List.filterMap_cons, shows_encode]
  cases k <;> first | rfl | cases hk

theorem brackets_exit {k : Kind} (hk : k.isExit = true) (m : MethodId) (ret : Option ReturnValue) :
    t.brackets [w.record k m ret] = [(false, t.methodName m, k.category)] := by
  simp only [brackets, Scribe.record, List.filterMap_cons, shows_encode]
  cases k <;> first | rfl | cases hk

end Timeline

/-- The ends of a frame are of one category. -/
theorem Family.kinds_ends {f : Family} {root : Bool} {k k' : Kind}
    (h : f.kinds root = some (k, k')) :
    k.isEntry = true ∧ k'.isExit = true ∧ k'.category = k.category := by
  cases f <;> cases root <;> cases h <;> exact ⟨rfl, rfl, rfl⟩

namespace CallTree

mutual

theorem bracketed_reference (t : Timeline) (w : Scribe) (d : Nat) (root : Bool) :
    (tree : CallTree) → Bracketed (t.brackets (reference w d root tree))
  | node f m ret children => by
    rw [reference]
    split
    · exact bracketed_referenceOf t w d root children
    · rename_i k k' hk
      obtain ⟨hentry, hexit, hcategory⟩ := Family.kinds_ends hk
      have hc := bracketed_referenceOf t w (d + 1) (f.below root) children
      -- a depth limit is passed at both ends of a frame or at none
      by_cases hd : d + 1 ≤ w.limit.toNat
      · simp only [Scribe.frame, hd, ↓reduceIte, Timeline.brackets_append,
          Timeline.brackets_entry t w hentry, Timeline.brackets_exit t w hexit, hcategory]
        exact .wrap _ hc
      · simpa only [Scribe.frame, hd, ↓reduceIte, List.nil_append, List.append_nil] using hc

theorem bracketed_referenceOf (t : Timeline) (w : Scribe) (d : Nat) (root : Bool) :
    (trees : List CallTree) → Bracketed (t.brackets (referenceOf w d root trees))
  | [] => .nil
  | tree :: trees => by
    rw [referenceOf, t.brackets_append]
    exact .append (bracketed_reference t w d root tree) (bracketed_referenceOf t w d root trees)

end

end CallTree

end MethodTrace
