import Mathlib.Algebra.BigOperators.Intervals
import Mathlib.Algebra.BigOperators.Ring.Finset
import Mathlib.Tactic.Ring
import MethodTrace.Proofs.NestedRuns
import MethodTrace.Workload.Basic

/-!
# Batches in numbers

What a batch of a workload comes to: how many hooks it calls, which methods it names, what it returns,
and how many frames it opens down to a depth. Level `l` has `fanout ^ l` calls, and they lie `l`
frames below the root.
-/

namespace MethodTrace

namespace CallTree
variable {s : Scribe} {p : Record → Bool} {e : Nat}

/-- Of the two records of a frame `e` have the property. -/
def PerFrame (s : Scribe) (p : Record → Bool) (e : Nat) : Prop :=
  ∀ (f : Family) (root : Bool) (k k' : Kind), f.kinds root = some (k, k') →
    ∀ (m : MethodId) (ret : Option ReturnValue),
      [s.record k m none].countP p + [s.record k' m ret].countP p = e

theorem countP_reference_node (h : PerFrame s p e) (d : Nat) {root : Bool} {f : Family}
    {k k' : Kind} (hk : f.kinds root = some (k, k')) (m : MethodId) (ret : Option ReturnValue)
    (children : List CallTree) :
    (reference s d root (node f m ret children)).countP p =
      (if d + 1 ≤ s.limit.toNat then e else 0) +
        (referenceOf s (d + 1) (f.below root) children).countP p := by
  have hframe := h f root k k' hk m ret
  simp only [reference, hk, Scribe.frame, List.countP_append]
  split
  · omega
  · simp only [List.countP_nil]
    omega

theorem referenceOf_replicate (s : Scribe) (d : Nat) (root : Bool) (n : Nat) (t : CallTree) :
    referenceOf s d root (List.replicate n t) = (List.replicate n (reference s d root t)).flatten := by
  induction n with
  | zero => rfl
  | succ n ih => rw [List.replicate_succ, referenceOf, ih, List.replicate_succ, List.flatten_cons]

theorem countP_flatten_replicate {α : Type} (p : α → Bool) (n : Nat) (l : List α) :
    (List.replicate n l).flatten.countP p = n * l.countP p := by
  induction n with
  | zero => rw [Nat.zero_mul]; rfl
  | succ n ih =>
    rw [List.replicate_succ, List.flatten_cons, List.countP_append, ih, Nat.succ_mul, Nat.add_comm]

theorem perFrame_isEntry (s : Scribe) : PerFrame s Record.isEntry 1 := by
  intro f root k k' hk m ret
  cases f <;> cases root <;> cases hk <;> simp [Scribe.record] <;> rfl

theorem perFrame_isExit (s : Scribe) : PerFrame s Record.isExit 1 := by
  intro f root k k' hk m ret
  cases f <;> cases root <;> cases hk <;> simp [Scribe.record] <;> rfl

theorem perFrame_true (s : Scribe) : PerFrame s (fun _ => true) 2 := fun _ _ _ _ _ _ _ => rfl

theorem heightOf_replicate_le (n : Nat) (t : CallTree) :
    heightOf (List.replicate n t) ≤ t.height := by
  induction n with
  | zero => exact Nat.zero_le _
  | succ n ih => exact Nat.max_le.mpr ⟨Nat.le_refl _, ih⟩

/-! ### Records of calls -/

theorem mem_frame {d : Nat} {k : Kind} {m : MethodId} {ret : Option ReturnValue} {r : Record}
    (hr : r ∈ s.frame d k m ret) : r = s.record k m ret := by
  rw [Scribe.frame] at hr
  split at hr
  · exact List.mem_singleton.mp hr
  · cases hr

mutual

/-- The records of a reference are of its calls, and those of root exits are of root exits. -/
theorem mem_reference (s : Scribe) (d : Nat) (root : Bool) : (t : CallTree) → {r : Record} →
    r ∈ reference s d root t → ∃ c ∈ t.calls, ∃ k, r = s.record k c.method c.ret ∧
      (k = .rootExit → c.hook = .rootExit)
  | node f m ret children, r, hr => by
    have hinner (d : Nat) (root : Bool) (hr : r ∈ referenceOf s d root children) :
        ∃ c ∈ (node f m ret children).calls, ∃ k, r = s.record k c.method c.ret ∧
          (k = .rootExit → c.hook = .rootExit) := by
      obtain ⟨c, hc, hrecord⟩ := mem_referenceOf s d root children hr
      refine ⟨c, ?_, hrecord⟩
      rw [calls_node]
      exact .tail _ (List.mem_append.mpr (.inl hc))
    rw [reference] at hr
    rcases hk : f.kinds root with _ | ⟨k, k'⟩ <;> rw [hk] at hr
    · exact hinner d root hr
    have hkinds : k ≠ .rootExit ∧ (k' = .rootExit → f.exit = .rootExit) := by
      cases f <;> cases root <;> cases hk <;> decide
    rcases List.mem_append.mp hr with hr | hr
    · rcases List.mem_append.mp hr with hr | hr
      · refine ⟨⟨f.entry, m, none⟩, ?_, k, mem_frame hr, fun hk => absurd hk hkinds.1⟩
        rw [calls_node]
        exact .head _
      · exact hinner (d + 1) (f.below root) hr
    · refine ⟨⟨f.exit, m, ret⟩, ?_, k', mem_frame hr, hkinds.2⟩
      rw [calls_node]
      exact .tail _ (List.mem_append.mpr (.inr (.head _)))

theorem mem_referenceOf (s : Scribe) (d : Nat) (root : Bool) : (ts : List CallTree) → {r : Record} →
    r ∈ referenceOf s d root ts → ∃ c ∈ ts.flatMap calls, ∃ k, r = s.record k c.method c.ret ∧
      (k = .rootExit → c.hook = .rootExit)
  | [], r, hr => by cases hr
  | t :: ts, r, hr => by
    rw [List.flatMap_cons]
    rcases List.mem_append.mp hr with hr | hr
    · obtain ⟨c, hc, hrecord⟩ := mem_reference s d root t hr
      exact ⟨c, List.mem_append.mpr (.inl hc), hrecord⟩
    · obtain ⟨c, hc, hrecord⟩ := mem_referenceOf s d root ts hr
      exact ⟨c, List.mem_append.mpr (.inr hc), hrecord⟩

end

end CallTree

namespace Workload
open CallTree

theorem callees_succ (fanout n level : Nat) :
    callees fanout (n + 1) level =
      (List.replicate fanout (.node .method (levelId level)
          (some (.int (.ofNat (level + (callees fanout n (level + 1)).2))))
          (callees fanout n (level + 1)).1),
        fanout * (level + (callees fanout n (level + 1)).2)) := rfl

/-- The root of a batch. -/
def trunk (w : Workload) : CallTree :=
  .node .root rootId (some (.int (.ofNat (callees w.fanout w.levels 1).2)))
    (callees w.fanout w.levels 1).1

theorem batch_eq (w : Workload) :
    w.batch = if w.useMarker then .node .marker batchId none [w.trunk] else w.trunk := rfl

/-! ### Sums over the levels -/

theorem sum_levels (f : Nat → Nat) (n : Nat) :
    ∑ l ∈ Finset.Icc 1 n, f l = ∑ j ∈ Finset.range n, f (j + 1) := by
  induction n with
  | zero => rfl
  | succ n ih => rw [Finset.sum_Icc_succ_top (Nat.le_add_left 1 n), ih, Finset.sum_range_succ]

/-- The frames around the root. -/
def markers (w : Workload) : Nat := if w.useMarker then 1 else 0

/-- The frames of a batch. -/
def frames (w : Workload) : Nat := w.markers + 1 + ∑ l ∈ Finset.Icc 1 w.depth, w.fanout ^ l

/-- The frames of a batch down to a depth. -/
def framesWithin (w : Workload) (limit : Nat) : Nat :=
  (if 1 ≤ limit then w.markers else 0) + (if w.markers + 1 ≤ limit then 1 else 0) +
    ∑ l ∈ Finset.Icc 1 w.depth, if w.markers + 1 + l ≤ limit then w.fanout ^ l else 0

/-- What a batch returns. -/
def total (w : Workload) : Nat := ∑ l ∈ Finset.Icc 1 w.depth, l * w.fanout ^ l

theorem callees_sum (fanout n level : Nat) :
    (callees fanout n level).2 = ∑ j ∈ Finset.range n, (level + j) * fanout ^ (j + 1) := by
  induction n generalizing level with
  | zero => rfl
  | succ n ih =>
    have hstep (j : Nat) : fanout * ((level + 1 + j) * fanout ^ (j + 1)) =
        (level + (j + 1)) * fanout ^ (j + 1 + 1) := by
      rw [pow_succ fanout (j + 1)]
      ring
    rw [callees_succ, ih, Finset.sum_range_succ', Nat.mul_add, Finset.mul_sum]
    simp only [hstep, Nat.add_zero, Nat.zero_add, pow_one]
    ring

theorem countP_callees {s : Scribe} {p : Record → Bool} {e : Nat} (h : PerFrame s p e)
    (fanout n level d : Nat) :
    (referenceOf s d true (callees fanout n level).1).countP p =
      e * ∑ j ∈ Finset.range n, if d + 1 + j ≤ s.limit.toNat then fanout ^ (j + 1) else 0 := by
  induction n generalizing level d with
  | zero => rfl
  | succ n ih =>
    have hstep (j : Nat) : fanout * (if d + 1 + 1 + j ≤ s.limit.toNat then fanout ^ (j + 1) else 0) =
        if d + 1 + (j + 1) ≤ s.limit.toNat then fanout ^ (j + 1 + 1) else 0 := by
      rw [Nat.add_assoc (d + 1) 1 j, Nat.add_comm 1 j, pow_succ fanout (j + 1), mul_ite, mul_comm,
        mul_zero]
    rw [callees_succ, referenceOf_replicate, countP_flatten_replicate,
      countP_reference_node h d (f := .method) rfl, show Family.method.below true = true from rfl, ih,
      Finset.sum_range_succ', Nat.mul_add, Nat.mul_left_comm, Finset.mul_sum]
    simp only [hstep, Nat.mul_add, Nat.add_zero, Nat.zero_add, pow_one]
    split <;> ring

theorem levels_eq {w : Workload} (hw : w.depth ≤ deepest) : w.levels = w.depth :=
  Nat.min_eq_left hw

/-- A batch writes `e` records with the property for each of its frames that is not too deep. -/
theorem countP_batch {s : Scribe} {p : Record → Bool} {e : Nat} (h : PerFrame s p e) {w : Workload}
    (hw : w.depth ≤ deepest) :
    (reference s 0 false w.batch).countP p = e * w.framesWithin s.limit.toNat := by
  have htrunk (d : Nat) : (reference s d false w.trunk).countP p =
      e * ((if d + 1 ≤ s.limit.toNat then 1 else 0) +
        ∑ l ∈ Finset.Icc 1 w.depth, if d + 1 + l ≤ s.limit.toNat then w.fanout ^ l else 0) := by
    rw [trunk, countP_reference_node h d (f := .root) rfl, show Family.root.below false = true from rfl,
      countP_callees h, levels_eq hw, sum_levels fun l => if d + 1 + l ≤ s.limit.toNat then w.fanout ^ l else 0,
      Nat.mul_add, mul_ite, mul_one, mul_zero]
    simp only [Nat.add_assoc, Nat.add_comm 1]
  rw [batch_eq]
  cases hm : w.useMarker with
  | true =>
    have hmarkers : w.markers = 1 := by rw [markers, hm, if_pos rfl]
    rw [if_pos rfl, countP_reference_node h 0 (f := .marker) rfl,
      show Family.marker.below false = false from rfl, referenceOf, referenceOf, List.append_nil,
      htrunk, framesWithin, hmarkers]
    simp only [Nat.zero_add, Nat.mul_add, mul_ite, mul_one, mul_zero, Nat.add_assoc]
  | false =>
    have hmarkers : w.markers = 0 := by rw [markers, hm, if_neg Bool.false_ne_true]
    rw [if_neg Bool.false_ne_true, htrunk, framesWithin, hmarkers]
    simp only [Nat.zero_add, ite_self]

/-! ### The calls of a batch -/

/-- A hook that a batch may call. -/
inductive Calls (w : Workload) : Call → Prop
  | markerEntry : Calls w ⟨.markerEntry, batchId, none⟩
  | markerExit : Calls w ⟨.markerExit, batchId, none⟩
  | rootEntry : Calls w ⟨.rootEntry, rootId, none⟩
  | rootExit : Calls w ⟨.rootExit, rootId, some (.int (.ofNat w.total))⟩
  | methodEntry {l : Nat} (hl : 1 ≤ l) (hl' : l ≤ w.depth) (hf : 1 ≤ w.fanout) :
    Calls w ⟨.methodEntry, levelId l, none⟩
  | methodExit {l : Nat} (hl : 1 ≤ l) (hl' : l ≤ w.depth) (hf : 1 ≤ w.fanout) (ret : ReturnValue) :
    Calls w ⟨.methodExit, levelId l, some ret⟩

theorem mem_calls_callees {fanout n level : Nat} {c : Call}
    (hc : c ∈ (callees fanout n level).1.flatMap calls) :
    1 ≤ fanout ∧ ∃ l, level ≤ l ∧ l < level + n ∧
      (c = ⟨.methodEntry, levelId l, none⟩ ∨ ∃ ret, c = ⟨.methodExit, levelId l, some ret⟩) := by
  induction n generalizing level with
  | zero => cases hc
  | succ n ih =>
    obtain ⟨t, ht, hc⟩ := List.mem_flatMap.mp hc
    rw [callees_succ] at ht
    obtain ⟨hfanout, rfl⟩ := List.mem_replicate.mp ht
    refine ⟨Nat.one_le_iff_ne_zero.mpr hfanout, ?_⟩
    rw [calls_node] at hc
    rcases List.mem_cons.mp hc with rfl | hc
    · exact ⟨level, Nat.le_refl _, by omega, .inl rfl⟩
    rcases List.mem_append.mp hc with hc | hc
    · obtain ⟨-, l, hl, hl', h⟩ := ih hc
      exact ⟨l, by omega, by omega, h⟩
    · exact ⟨level, Nat.le_refl _, by omega, .inr ⟨_, List.mem_singleton.mp hc⟩⟩

theorem calls_of_mem {w : Workload} (hw : w.depth ≤ deepest) {c : Call} (hc : c ∈ w.batch.calls) :
    w.Calls c := by
  have htrunk (hc : c ∈ w.trunk.calls) : w.Calls c := by
    rw [trunk, calls_node, levels_eq hw] at hc
    rcases List.mem_cons.mp hc with rfl | hc
    · exact .rootEntry
    rcases List.mem_append.mp hc with hc | hc
    · obtain ⟨hf, l, hl, hl', rfl | ⟨ret, rfl⟩⟩ := mem_calls_callees hc
      · exact .methodEntry hl (by omega) hf
      · exact .methodExit hl (by omega) hf ret
    · have htotal : (callees w.fanout w.depth 1).2 = w.total := by
        rw [callees_sum, total, sum_levels fun l => l * w.fanout ^ l]
        simp only [Nat.add_comm 1]
      rw [List.mem_singleton.mp hc, htotal]
      exact .rootExit
  rw [batch_eq] at hc
  split at hc
  · rw [calls_node] at hc
    rcases List.mem_cons.mp hc with rfl | hc
    · exact .markerEntry
    rcases List.mem_append.mp hc with hc | hc
    · exact htrunk (by simpa using hc)
    · rw [List.mem_singleton.mp hc]
      exact .markerExit
  · exact htrunk hc

theorem Calls.ret_of_rootExit {w : Workload} {c : Call} (h : w.Calls c)
    (hexit : c.hook = .rootExit) : c.ret = some (.int (.ofNat w.total)) := by
  cases h with
  | rootExit => rfl
  | _ => cases hexit

/-- The two hooks of a frame, `e` of which have the property. -/
def PerCall (p : Call → Bool) (e : Family → Nat) : Prop :=
  ∀ (f : Family) (m : MethodId) (ret : Option ReturnValue),
    [⟨f.entry, m, none⟩].countP p + [⟨f.exit, m, ret⟩].countP p = e f

theorem countP_calls_node {p : Call → Bool} {e : Family → Nat} (h : PerCall p e) (f : Family)
    (m : MethodId) (ret : Option ReturnValue) (children : List CallTree) :
    (CallTree.node f m ret children).calls.countP p = e f + (children.flatMap calls).countP p := by
  have hnode := h f m ret
  rw [calls_node, ← List.singleton_append, List.countP_append, List.countP_append]
  omega

theorem countP_calls_callees {p : Call → Bool} {e : Family → Nat} (h : PerCall p e)
    (fanout n level : Nat) : ((callees fanout n level).1.flatMap calls).countP p =
      e .method * ∑ j ∈ Finset.range n, fanout ^ (j + 1) := by
  induction n generalizing level with
  | zero => rfl
  | succ n ih =>
    rw [callees_succ, List.flatMap_replicate, countP_flatten_replicate, countP_calls_node h, ih,
      Finset.sum_range_succ']
    simp only [pow_succ fanout, ← Finset.sum_mul]
    ring

theorem countP_calls_batch {p : Call → Bool} {e : Family → Nat} (h : PerCall p e) {w : Workload}
    (hw : w.depth ≤ deepest) : w.batch.calls.countP p =
      w.markers * e .marker + e .root + e .method * ∑ l ∈ Finset.Icc 1 w.depth, w.fanout ^ l := by
  have htrunk : w.trunk.calls.countP p =
      e .root + e .method * ∑ l ∈ Finset.Icc 1 w.depth, w.fanout ^ l := by
    rw [trunk, countP_calls_node h, levels_eq hw, countP_calls_callees h, sum_levels]
  rw [batch_eq]
  cases hm : w.useMarker with
  | true =>
    have hmarkers : w.markers = 1 := by rw [markers, hm, if_pos rfl]
    rw [if_pos rfl, countP_calls_node h, List.flatMap_singleton, htrunk, hmarkers, Nat.one_mul,
      Nat.add_assoc]
  | false =>
    have hmarkers : w.markers = 0 := by rw [markers, hm, if_neg Bool.false_ne_true]
    rw [if_neg Bool.false_ne_true, htrunk, hmarkers, Nat.zero_mul, Nat.zero_add]

theorem length_calls_batch {w : Workload} (hw : w.depth ≤ deepest) :
    w.batch.calls.length = 2 * w.frames := by
  have hcount := countP_calls_batch (p := fun _ => true) (e := fun _ => 2) (fun _ _ _ => rfl) hw
  rw [List.countP_true] at hcount
  rw [hcount, frames]
  omega

theorem countP_enrolls_batch {w : Workload} (hw : w.depth ≤ deepest) :
    (w.batch.calls.countP fun c => c.hook.enrolls) = w.markers + 1 := by
  have hcount := countP_calls_batch (p := fun c => c.hook.enrolls)
    (e := fun f => if f = .method then 0 else 1) (fun f _ _ => by cases f <;> rfl) hw
  rw [hcount]
  simp

/-! ### Heights -/

theorem heightOf_callees_le (fanout n level : Nat) :
    heightOf (callees fanout n level).1 ≤ n := by
  induction n generalizing level with
  | zero => exact Nat.le_refl 0
  | succ n ih =>
    rw [callees_succ]
    exact Nat.le_trans (heightOf_replicate_le ..) (Nat.succ_le_succ (ih (level + 1)))

theorem height_batch_le (w : Workload) : w.batch.height ≤ deepest + 2 := by
  have hlevels : w.levels ≤ deepest := Nat.min_le_right _ _
  have htrunk : w.trunk.height ≤ deepest + 1 :=
    Nat.succ_le_succ (Nat.le_trans (heightOf_callees_le ..) hlevels)
  rw [batch_eq]
  split
  · exact Nat.succ_le_succ (Nat.max_le.mpr ⟨htrunk, Nat.zero_le _⟩)
  · exact Nat.le_succ_of_le htrunk

/-! ### Names -/

theorem index_levelId {l : Nat} (hl : l ≤ deepest) : (levelId l).index = levelZero + l := by
  have hlt : levelZero + l < UInt16.size := by
    have : levelZero + deepest < UInt16.size := by decide
    omega
  rw [levelId, Nat.min_eq_left hl]
  exact UInt16.toNat_ofNat_of_lt' hlt

theorem levelId_inj {l l' : Nat} (hl : l ≤ deepest) (hl' : l' ≤ deepest)
    (h : levelId l = levelId l') : l = l' := by
  have hindex := congrArg MethodId.index h
  rw [index_levelId hl, index_levelId hl'] at hindex
  exact Nat.add_left_cancel hindex

/-- The ids of the levels are those of no root and no marker. -/
theorem levelId_ne {l : Nat} (hl : l ≤ deepest) : levelId l ≠ batchId ∧ levelId l ≠ rootId := by
  have hindex := index_levelId hl
  constructor <;> intro heq <;> rw [heq] at hindex
  · have hbatch : batchId.index = 1 := rfl
    rw [hbatch, levelZero] at hindex
    omega
  · have hroot : rootId.index = 2 := rfl
    rw [hroot, levelZero] at hindex
    omega

theorem nodup_levelIds (w : Workload) : ((List.range' 1 w.levels).map levelId).Nodup := by
  have hle {l : Nat} (hl : l ∈ List.range' 1 w.levels) : l ≤ deepest := by
    have hlevels : w.levels ≤ deepest := Nat.min_le_right _ _
    have := List.mem_range'_1.mp hl
    omega
  exact List.Nodup.map_on (fun l hl l' hl' h => levelId_inj (hle hl) (hle hl') h) List.nodup_range'

theorem legend_ids (w : Workload) : w.legend.map Prod.fst =
    batchId :: rootId :: (List.range' 1 w.levels).map levelId := by
  simp [legend, Function.comp_def]

theorem nodup_legend (w : Workload) : (w.legend.map Prod.fst).Nodup := by
  have hlevels : w.levels ≤ deepest := Nat.min_le_right _ _
  have hne {k : MethodId} (hk : k ∈ (List.range' 1 w.levels).map levelId) :
      k ≠ batchId ∧ k ≠ rootId := by
    obtain ⟨l, hl, rfl⟩ := List.mem_map.mp hk
    have := List.mem_range'_1.mp hl
    exact levelId_ne (by omega)
  rw [legend_ids, List.nodup_cons, List.nodup_cons]
  refine ⟨fun hmem => ?_, fun hmem => (hne hmem).2 rfl, w.nodup_levelIds⟩
  rcases List.mem_cons.mp hmem with heq | hmem
  · cases heq
  · exact (hne hmem).1 rfl

/-- Every method that a batch names stands in the legend, under one name. -/
theorem existsUnique_name {w : Workload} (hw : w.depth ≤ deepest) {c : Call} (hc : w.Calls c) :
    ∃! name, (c.method, name) ∈ w.legend := by
  have hmem : c.method ∈ w.legend.map Prod.fst := by
    have hlevel {l : Nat} (hl : 1 ≤ l) (hl' : l ≤ w.depth) :
        levelId l ∈ batchId :: rootId :: (List.range' 1 w.levels).map levelId := by
      rw [levels_eq hw]
      refine .tail _ (.tail _ (List.mem_map_of_mem ?_))
      exact List.mem_range'_1.mpr ⟨hl, by omega⟩
    rw [legend_ids]
    cases hc with
    | markerEntry | markerExit => exact .head _
    | rootEntry | rootExit => exact .tail _ (.head _)
    | methodEntry hl hl' | methodExit hl hl' => exact hlevel hl hl'
  obtain ⟨⟨k, name⟩, hname, heq⟩ := List.mem_map.mp hmem
  obtain rfl : k = c.method := heq
  refine ⟨name, hname, fun name' hname' => ?_⟩
  exact congrArg Prod.snd (List.inj_on_of_nodup_map w.nodup_legend hname' hname rfl)

end Workload

end MethodTrace
