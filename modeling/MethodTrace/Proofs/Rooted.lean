import MethodTrace.Proofs.Scribe

/-!
# Calls in any order

Nothing is assumed here of the order in which a thread calls the hooks: exits may come without
entries and markers may close roots. `CallStack.Sane` holds of every stack that calls have left
behind, and `Consistent` ties it to the records that they have written: the depth is the entries
less the exits, and while there is an active root, a root has been entered with no root's exit
since.
-/

namespace MethodTrace

/-- A stack is in the graph if it has frames, and only then can it have a root. -/
structure CallStack.Sane (s : CallStack) : Prop where
  inGraph : s.inGraph = true ↔ 0 < s.depth
  root : 0 < s.rootDepth → s.inGraph = true

namespace Hook
variable {h : Hook} {s : CallStack} {o : Opening}

/-- The entries that a sane stack gives rise to; it leads nobody astray. -/
theorem opening?_cases (hs : s.Sane) (hc : h.concerns s = true) (ho : h.opening? s = some o) :
    (o = .root ∧ s.hasRoot = false) ∨ (o = .method ∧ s.hasRoot = true) ∨ o = .marker := by
  cases h with
  | rootExit | methodExit | markerExit => cases ho
  | methodEntry => cases ho; exact .inr (.inl ⟨rfl, hc⟩)
  | markerEntry => cases ho; exact .inr (.inr rfl)
  | rootEntry =>
    have hin : (!s.inGraph && decide (0 < s.depth)) = false := by
      cases hg : s.inGraph with
      | true => rfl
      | false => simpa [hg] using hs.inGraph
    simp only [opening?, hin, Bool.false_eq_true, ↓reduceIte] at ho
    cases hr : s.hasRoot with
    | true => simp only [hr, ↓reduceIte] at ho; cases ho; exact .inr (.inl ⟨rfl, rfl⟩)
    | false => simp only [hr, Bool.false_eq_true, ↓reduceIte] at ho; cases ho; exact .inl ⟨rfl, rfl⟩

theorem isExit_or_opening? (hs : s.Sane) (hc : h.concerns s = true) :
    (h.isExit = true ∧ h.opening? s = none) ∨ ∃ o, h.opening? s = some o := by
  cases h with
  | rootExit | methodExit | markerExit => exact .inl ⟨rfl, rfl⟩
  | methodEntry | markerEntry => exact .inr ⟨_, rfl⟩
  | rootEntry =>
    refine .inr ?_
    simp only [opening?]
    split
    · rename_i hin
      simp only [Bool.and_eq_true, Bool.not_eq_eq_eq_not, Bool.not_true, decide_eq_true_eq] at hin
      rw [hs.inGraph.mpr hin.2] at hin
      cases hin.1
    · split <;> exact ⟨_, rfl⟩

/-- An exit finds a frame. -/
theorem inGraph_of_isExit (he : h.isExit = true) (hc : h.concerns s = true) :
    s.inGraph = true := by
  cases h with
  | rootExit | methodExit => exact (CallStack.hasRoot_iff.mp hc).1
  | markerExit => exact hc
  | _ => cases he

end Hook

namespace CallStack.Sane
variable {s : CallStack} {h : Hook} {o : Opening}

theorem new (no : ThreadNo) (name : Option String) : (CallStack.new no name).Sane where
  inGraph := by simp [CallStack.new]
  root := by simp [CallStack.new]

theorem push_inGraph (hs : s.Sane) (hc : h.concerns s = true) (ho : h.opening? s = some o) :
    (o.push (o.prepare s)).inGraph = true := by
  rcases Hook.opening?_cases hs hc ho with ⟨rfl, -⟩ | ⟨rfl, hr⟩ | rfl
  · simp only [Opening.prepare]
    split
    · rfl
    · rename_i hd
      exact hs.inGraph.mpr (UInt32.pos_iff_ne_zero.mpr hd)
  · exact (hasRoot_iff.mp hr).1
  · rfl

theorem push (hs : s.Sane) (hc : h.concerns s = true) (ho : h.opening? s = some o) :
    (o.push (o.prepare s)).Sane where
  inGraph := ⟨fun _ => by rw [Opening.push_depth]; exact above_pos _,
    fun _ => hs.push_inGraph hc ho⟩
  root _ := hs.push_inGraph hc ho

theorem pop (he : h.isExit = true) (hc : h.concerns s = true) : (h.pop s).Sane where
  inGraph := by
    rw [Hook.pop_inGraph, Hook.pop_depth]
    split
    · rename_i hd; simp [hd]
    · rename_i hd
      exact ⟨fun _ => UInt32.pos_iff_ne_zero.mpr hd, fun _ => Hook.inGraph_of_isExit he hc⟩
  root hr := by
    rw [Hook.pop_rootDepth] at hr
    rw [Hook.pop_inGraph]
    split
    · rename_i hd; simp [hd] at hr
    · exact Hook.inGraph_of_isExit he hc

theorem effect (hs : s.Sane) (c : Call) (w : Scribe) : (c.effect w s).1.Sane := by
  unfold Call.effect
  split
  · rename_i hc
    rcases Hook.isExit_or_opening? hs hc with ⟨he, ho⟩ | ⟨o, ho⟩
    · simp only [Call.deed, ho, he]
      exact pop he hc
    · simp only [Call.deed, ho]
      exact hs.push hc ho
  · exact hs

theorem follow (hs : s.Sane) (w : Scribe) (cs : List Call) : (w.follow cs s).1.Sane := by
  induction cs generalizing s with
  | nil => exact hs
  | cons c cs ih => exact ih (hs.effect c w)

end CallStack.Sane

/-! ### Histories -/

/-- Whether the record tells of a frame inside a root, or of the root's end. -/
def Record.needsRoot (r : Record) : Bool := r.isOf .rootExit || r.isOf .methodEntry || r.isOf .methodExit

/-- A root has been entered, with no root's exit since. -/
def Rooted (rs : List Record) : Prop :=
  ∃ a r b, rs = a ++ r :: b ∧ r.isOf .rootEntry = true ∧ ∀ x ∈ b, x.isOf .rootExit = false

/-- No record tells of a frame inside a root where there was none. -/
def Ordered (rs : List Record) : Prop :=
  ∀ a r b, rs = a ++ r :: b → r.needsRoot = true → Rooted a

theorem Rooted.append {rs : List Record} {r : Record} (h : Rooted rs)
    (hr : r.isOf .rootExit = false) : Rooted (rs ++ [r]) := by
  obtain ⟨a, e, b, rfl, he, hb⟩ := h
  refine ⟨a, e, b ++ [r], by simp, he, fun x hx => ?_⟩
  rcases List.mem_append.mp hx with hx | hx
  · exact hb x hx
  · rw [List.mem_singleton.mp hx]; exact hr

theorem rooted_append_entry (rs : List Record) {r : Record} (hr : r.isOf .rootEntry = true) :
    Rooted (rs ++ [r]) :=
  ⟨rs, r, [], rfl, hr, by simp⟩

theorem Ordered.append {rs : List Record} {r : Record} (h : Ordered rs)
    (hr : r.needsRoot = true → Rooted rs) : Ordered (rs ++ [r]) := by
  intro a x b heq hx
  rcases List.eq_nil_or_concat b with rfl | ⟨b, y, rfl⟩
  · obtain ⟨rfl, hrx⟩ := List.append_inj' heq rfl
    cases hrx
    exact hr hx
  · rw [List.concat_eq_append, ← List.cons_append, ← List.append_assoc] at heq
    exact h a x b (List.append_inj' heq rfl).1 hx

theorem Rooted.of_map_timeless {rs : List Record} (h : Rooted (rs.map Record.timeless)) :
    Rooted rs := by
  obtain ⟨a, r, b, heq, hr, hb⟩ := h
  obtain ⟨a, b', rfl, rfl, hb'⟩ := List.map_eq_append_iff.mp heq
  obtain ⟨r, b, rfl, rfl, rfl⟩ := List.map_eq_cons_iff.mp hb'
  exact ⟨a, r, b, rfl, hr, fun x hx => hb x.timeless (List.mem_map_of_mem hx)⟩

theorem Ordered.of_map_timeless {rs : List Record} (h : Ordered (rs.map Record.timeless)) :
    Ordered rs := by
  rintro a r b rfl hr
  refine Rooted.of_map_timeless (h _ r.timeless (b.map Record.timeless) ?_ hr)
  rw [List.map_append, List.map_cons]

/-- What the records of a thread say about its stack. -/
structure Consistent (s : CallStack) (rs : List Record) : Prop where
  sane : s.Sane
  depth : s.depth.toNat + rs.countP Record.isExit = rs.countP Record.isEntry
  rooted : 0 < s.rootDepth → Rooted rs
  ordered : Ordered rs

/-- Never are more than `UInt32.size - 1` frames open. -/
def Shallow (rs : List Record) : Prop :=
  ∀ a, a <+: rs → a.countP Record.isEntry < a.countP Record.isExit + UInt32.size

theorem Shallow.map_timeless {rs : List Record} (h : Shallow rs) :
    Shallow (rs.map Record.timeless) := by
  intro a ha
  obtain ⟨b, hb⟩ := ha
  obtain ⟨a, b, rfl, rfl, rfl⟩ := List.map_eq_append_iff.mp hb.symm
  have := h a (List.prefix_append a b)
  simpa [List.countP_map, Function.comp_def] using this

theorem shallow_of_length {rs : List Record} (h : rs.length < UInt32.size) : Shallow rs := by
  intro a ha
  have hle := List.countP_le_length (p := Record.isEntry) (l := a)
  have hlen := ha.length_le
  omega

namespace Consistent
variable {s : CallStack} {rs : List Record} {w : Scribe} {c : Call} {o : Opening}

theorem new (no : ThreadNo) (name : Option String) (hrs : ∀ r ∈ rs, r.isOf .threadCreated = true) :
    Consistent (.new no name) rs := by
  have hkind : ∀ r ∈ rs, r.isEntry = false ∧ r.isExit = false ∧ r.needsRoot = false := by
    intro r hr
    simp [Record.isEntry, Record.isExit, Record.needsRoot, Record.isOf_eq (hrs r hr)]
  refine ⟨.new no name, ?_, fun h => absurd h (by simp [CallStack.new]), fun a r b heq hr => ?_⟩
  · rw [List.countP_eq_zero.mpr fun r hr => by simp [(hkind r hr).2.1],
      List.countP_eq_zero.mpr fun r hr => by simp [(hkind r hr).1]]
    rfl
  · rw [(hkind r (by simp [heq])).2.2] at hr
    cases hr

theorem push (h : Consistent s rs) (hc : c.hook.concerns s = true)
    (ho : c.hook.opening? s = some o)
    (hs : Shallow (rs ++ [w.record o.kind c.method none])) :
    Consistent (o.push (o.prepare s)) (rs ++ [w.record o.kind c.method none]) := by
  have hcases := Hook.opening?_cases h.sane hc ho
  have hentry : (w.record o.kind c.method none).isEntry = true := by
    cases o <;> simp [Scribe.record, Opening.kind, Kind.isEntry]
  have hexit : (w.record o.kind c.method none).isExit = false := by
    cases o <;> simp [Scribe.record, Opening.kind, Kind.isExit]
  refine ⟨h.sane.push hc ho, ?_, fun hr => ?_, h.ordered.append fun hr => ?_⟩
  · have := hs _ List.prefix_rfl
    have hd := h.depth
    simp only [List.countP_append, List.countP_singleton, hentry, hexit, ↓reduceIte,
      Bool.false_eq_true] at this ⊢
    rw [Opening.push_depth, Opening.prepare_depth, CallStack.toNat_above (by omega)]
    omega
  · rcases hcases with ⟨rfl, -⟩ | ⟨rfl, -⟩ | rfl
    · exact rooted_append_entry rs (by simp [Scribe.record, Opening.kind])
    · exact (h.rooted hr).append (by simp [Scribe.record, Opening.kind])
    · exact (h.rooted hr).append (by simp [Scribe.record, Opening.kind])
  · rcases hcases with ⟨rfl, -⟩ | ⟨rfl, hroot⟩ | rfl
    · simp [Scribe.record, Opening.kind, Record.needsRoot] at hr
    · exact h.rooted (CallStack.hasRoot_iff.mp hroot).2
    · simp [Scribe.record, Opening.kind, Record.needsRoot] at hr

theorem pop (h : Consistent s rs) (hc : c.hook.concerns s = true) (he : c.hook.isExit = true) :
    Consistent (c.hook.pop s)
      (rs ++ [w.record (c.hook.exitKind (c.hook.pop s)) c.method c.ret]) := by
  have hin := Hook.inGraph_of_isExit he hc
  have hpos : 0 < s.depth.toNat := UInt32.lt_iff_toNat_lt.mp (h.sane.inGraph.mp hin)
  have hkind : ∀ x, c.hook.exitKind (c.hook.pop s) = x →
      (x = .markerExit ∧ c.hook = .markerExit) ∨ (x = .rootExit ∧ c.hook ≠ .markerExit ∧
        (c.hook.pop s).rootDepth = 0) ∨ (x = .methodExit ∧ c.hook ≠ .markerExit) := by
    rintro x rfl
    unfold Hook.exitKind
    split
    · rename_i hm; exact .inl ⟨rfl, hm⟩
    · rename_i hm
      split
      · rename_i hr; exact .inr (.inl ⟨rfl, hm, hr⟩)
      · exact .inr (.inr ⟨rfl, hm⟩)
  generalize c.hook.exitKind (c.hook.pop s) = k at hkind ⊢
  have hk := hkind k rfl
  -- only an exit that a root concerns writes the end of something inside a root
  have hroot : c.hook ≠ .markerExit → Rooted rs := by
    intro hm
    refine h.rooted ?_
    cases hh : c.hook with
    | markerExit => exact absurd hh hm
    | rootExit | methodExit => rw [hh] at hc; exact (CallStack.hasRoot_iff.mp hc).2
    | _ => rw [hh] at he; cases he
  refine ⟨.pop he hc, ?_, fun hr => ?_, h.ordered.append fun hr => ?_⟩
  · have hentry : (w.record k c.method c.ret).isEntry = false := by
      rcases hk with ⟨rfl, -⟩ | ⟨rfl, -⟩ | ⟨rfl, -⟩ <;> simp [Scribe.record, Kind.isEntry]
    have hexit : (w.record k c.method c.ret).isExit = true := by
      rcases hk with ⟨rfl, -⟩ | ⟨rfl, -⟩ | ⟨rfl, -⟩ <;> simp [Scribe.record, Kind.isExit]
    have hd := h.depth
    simp only [List.countP_append, List.countP_singleton, hentry, hexit, ↓reduceIte,
      Bool.false_eq_true]
    rw [Hook.pop_depth, CallStack.toNat_below]
    omega
  · have hs : 0 < s.rootDepth := by
      rw [Hook.pop_rootDepth] at hr
      split at hr
      · simp at hr
      · split at hr
        · simp at hr
        · exact hr
    refine (h.rooted hs).append ?_
    rcases hk with ⟨rfl, -⟩ | ⟨rfl, -, h0⟩ | ⟨rfl, -⟩
    · simp [Scribe.record]
    · rw [h0] at hr; simp at hr
    · simp [Scribe.record]
  · rcases hk with ⟨rfl, -⟩ | ⟨rfl, hm, -⟩ | ⟨rfl, hm⟩
    · simp [Scribe.record, Record.needsRoot] at hr
    · exact hroot hm
    · exact hroot hm

theorem effect (h : Consistent s rs) (hw : w.limit = 0xffffffff)
    (hs : Shallow (rs ++ (c.effect w s).2)) :
    Consistent (c.effect w s).1 (rs ++ (c.effect w s).2) := by
  unfold Call.effect at hs ⊢
  split
  · rename_i hc
    rw [if_pos hc] at hs
    rcases Hook.isExit_or_opening? h.sane hc with ⟨he, ho⟩ | ⟨o, ho⟩
    · simp only [Call.deed, ho, he, ↓reduceIte, Scribe.frame_of_limit hw (UInt32.toNat_lt _)]
      exact h.pop hc he
    · simp only [Call.deed, ho, Scribe.frame_of_limit hw (UInt32.toNat_lt _)] at hs ⊢
      exact h.push hc ho hs
  · simpa using h

theorem follow (h : Consistent s rs) (hw : w.limit = 0xffffffff) (cs : List Call)
    (hs : Shallow (rs ++ (w.follow cs s).2)) :
    Consistent (w.follow cs s).1 (rs ++ (w.follow cs s).2) := by
  induction cs generalizing s rs with
  | nil => simpa [Scribe.follow] using h
  | cons c cs ih =>
    simp only [Scribe.follow, ← List.append_assoc] at hs ⊢
    exact ih (h.effect hw fun a ha => hs a (ha.trans (List.prefix_append _ _))) hs

end Consistent

/-! ### What an order means -/

namespace Ordered
variable {rs : List Record}

/-- A root's exit has a root's entry before it. -/
theorem entry_before (h : Ordered rs) {a b : List Record} {r : Record} (heq : rs = a ++ r :: b)
    (hr : r.isOf .rootExit = true) : ∃ e ∈ a, e.isOf .rootEntry = true := by
  obtain ⟨x, e, y, rfl, he, -⟩ := h a r b heq (by simp [Record.needsRoot, hr])
  exact ⟨e, by simp, he⟩

/-- Between two exits of roots there is a root's entry. -/
theorem entry_between (h : Ordered rs) {a b c : List Record} {r r' : Record}
    (heq : rs = a ++ r :: (b ++ r' :: c)) (hr : r.isOf .rootExit = true)
    (hr' : r'.isOf .rootExit = true) : ∃ e ∈ b, e.isOf .rootEntry = true := by
  obtain ⟨x, e, y, hsplit, he, hy⟩ := h (a ++ r :: b) r' c (by simp [heq])
    (by simp [Record.needsRoot, hr'])
  have hne : r ≠ e := by
    rintro rfl
    rw [Record.isOf_eq hr] at he
    cases he
  -- the entry stands behind the first of the two exits, since no exit stands behind the entry
  rcases List.append_eq_append_iff.mp hsplit with ⟨z, rfl, hz⟩ | ⟨z, rfl, hz⟩
  · rcases List.cons_eq_append_iff.mp hz with ⟨-, hz⟩ | ⟨z, rfl, rfl⟩
    · cases hz
      exact absurd rfl hne
    · exact ⟨e, by simp, he⟩
  · rcases List.cons_eq_append_iff.mp hz with ⟨-, hz⟩ | ⟨z, rfl, rfl⟩
    · cases hz
      exact absurd rfl hne
    · rw [hy r (by simp)] at hr
      cases hr

end Ordered

end MethodTrace
