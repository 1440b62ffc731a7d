import MethodTrace.Proofs.Bookkeeping
import MethodTrace.Proofs.Course
import MethodTrace.Proofs.Flow

/-!
# What a tracer with other settings writes

Two tracers with other limits and flags for their records write the same, but for what the lower limit
leaves out and for the return values that one of them does not capture
(`settings_only_sift_records`). The depth of a frame while it is open is noted beside its records
(`Machine.log`).
-/

namespace MethodTrace

namespace Record

/-- The depth, while it is open, of the frame that a record is about. When it is written the stack
comes from depth `before` to depth `after`. -/
def depth? (r : Record) (before after : UInt32) : Option UInt32 :=
  if r.isEntry then some after else if r.isExit then some before else none

/-- Without the return value of an exit. -/
def muted (r : Record) : Record := if r.isExit then { r with payload := 0, payloadTag := 0 } else r

end Record

/-- The records of frames down to the limit and those of no frame; return values may be left out. -/
def sift (limit : UInt32) (mutes : Bool) (es : List (Option UInt32 × Record)) : List Record :=
  (es.filter fun e => e.1.all (· ≤ limit)).map fun e => if mutes then e.2.muted else e.2

theorem sift_append (limit : UInt32) (mutes : Bool) (es es' : List (Option UInt32 × Record)) :
    sift limit mutes (es ++ es') = sift limit mutes es ++ sift limit mutes es' := by
  simp [sift]

/-- Records that are about no frame are all kept. -/
theorem sift_of_no_frame (limit : UInt32) (mutes : Bool) {rs : List Record}
    (h : ∀ r ∈ rs, r.isEntry = false ∧ r.isExit = false) (before after : UInt32) :
    sift limit mutes (rs.map fun r => (r.depth? before after, r)) = rs := by
  induction rs with
  | nil => rfl
  | cons r rs ih =>
    obtain ⟨⟨hentry, hexit⟩, h⟩ := List.forall_mem_cons.mp h
    have hr : sift limit mutes [(r.depth? before after, r)] = [r] := by
      simp [sift, Record.depth?, Record.muted, hentry, hexit]
    rw [List.map_cons, ← List.singleton_append, sift_append, hr, ih h, List.singleton_append]

namespace Scribe

/-- Who writes with a lower limit and may leave return values out. -/
structure Sifts (w w' : Scribe) : Prop where
  no : w.no = w'.no
  limit : w.limit ≤ w'.limit
  captures : w.captures = true → w'.captures = true

/-- Whether return values are left out by one of the two only. -/
def mutes (w w' : Scribe) : Bool := w.captures != w'.captures

variable {w w' : Scribe}

/-- Only exits carry return values. -/
theorem muted_record (w : Scribe) {k : Kind} (m : MethodId) {ret : Option ReturnValue}
    (hk : k.isExit = true ∨ ret = none) : (w.record k m ret).muted = w.record k m none := by
  cases he : k.isExit with
  | true =>
    have hexit : (w.record k m ret).isExit = true := by rw [record, Record.isExit_encode, he]
    rw [Record.muted, if_pos hexit]
    simp [record, Event.encode]
  | false =>
    obtain rfl : ret = none := hk.resolve_left (by simp [he])
    simp [Record.muted, record, he]

theorem Sifts.record (h : Sifts w w') {k : Kind} (m : MethodId) {ret : Option ReturnValue}
    (hk : k.isExit = true ∨ ret = none) :
    w.record k m ret = if w.mutes w' then (w'.record k m ret).muted else w'.record k m ret := by
  rw [muted_record w' m hk]
  cases hc : w.captures with
  | true => simp [Scribe.record, mutes, hc, h.captures hc, h.no]
  | false => cases hc' : w'.captures <;> simp [Scribe.record, mutes, hc, hc', h.no]

/-- What is left of the record of a frame at depth `d`. -/
theorem Sifts.frame (h : Sifts w w') {d before after : UInt32} {k : Kind} {m : MethodId}
    {ret : Option ReturnValue} (hk : k.isEntry = true ∧ ret = none ∧ after = d ∨
      k.isExit = true ∧ before = d) :
    w.frame d.toNat k m ret = sift w.limit (w.mutes w')
      ((w'.frame d.toNat k m ret).map fun r => (r.depth? before after, r)) := by
  have hdepth : (w'.record k m ret).depth? before after = some d := by
    rcases hk with ⟨hk, -, rfl⟩ | ⟨hk, rfl⟩
    · simp only [Record.depth?, Scribe.record, Record.isEntry_encode, hk, ↓reduceIte]
    · have hentry : k.isEntry = false := by cases k <;> first | rfl | cases hk
      simp [Record.depth?, Scribe.record, hentry, hk]
  have hrecord := h.record m (hk.elim (fun h => .inr h.2.1) fun h => .inl h.1)
  have hle := UInt32.le_iff_toNat_le.mp h.limit
  by_cases hd : d.toNat ≤ w.limit.toNat
  · have hd' : d ≤ w.limit := UInt32.le_iff_toNat_le.mpr hd
    rw [Scribe.frame, if_pos hd, Scribe.frame, if_pos (Nat.le_trans hd hle), hrecord]
    simp [sift, hdepth, hd']
  · have hd' : ¬ d ≤ w.limit := fun h => hd (UInt32.le_iff_toNat_le.mp h)
    rw [Scribe.frame, if_neg hd, Scribe.frame]
    split
    · simp [sift, hdepth, hd']
    · rfl

end Scribe

theorem Opening.kind_isEntry (o : Opening) : o.kind.isEntry = true := by cases o <;> rfl

theorem Hook.exitKind_isExit (h : Hook) (s : CallStack) : (h.exitKind s).isExit = true := by
  unfold exitKind
  split
  · rfl
  · split <;> rfl

namespace Call
variable {c : Call} {w w' : Scribe} {s : CallStack}

/-- What a call that goes from a stage to the next one does to its stack, but for the guard, and what
it writes. -/
def moves (c : Call) (w : Scribe) (s : CallStack) : Stage → Stage → CallStack × List Record
  | .guarding _ _ fresh, .expanding _ _ o => (o.prepare s, c.greeting w fresh)
  | .guarding _ _ fresh, _ => ((c.deed w s).1, c.greeting w fresh ++ (c.deed w s).2)
  | .expanding _ _ o, _ => (o.push s, w.frame (o.push s).depth.toNat o.kind c.method none)
  | _, _ => (s, [])

theorem sift_greeting (h : w.Sifts w') (fresh : Bool) (before after : UInt32) :
    c.greeting w fresh = sift w.limit (w.mutes w')
      ((c.greeting w' fresh).map fun r => (r.depth? before after, r)) := by
  have hcreated : w.created = w'.created := by rw [Scribe.created, h.no, Scribe.created]
  rw [sift_of_no_frame]
  · rw [greeting, greeting, hcreated]
  · intro r hr
    unfold greeting at hr
    split at hr
    · rw [List.mem_singleton.mp hr]
      exact ⟨rfl, rfl⟩
    · cases hr

theorem sift_deed (h : w.Sifts w') (c : Call) (s : CallStack) :
    (c.deed w s).1 = (c.deed w' s).1 ∧
      (c.deed w s).2 = sift w.limit (w.mutes w')
        ((c.deed w' s).2.map fun r => (r.depth? s.depth (c.deed w' s).1.depth, r)) := by
  unfold deed
  split
  · rename_i o _
    exact ⟨rfl, h.frame (.inl ⟨o.kind_isEntry, rfl, rfl⟩)⟩
  · split
    · exact ⟨rfl, h.frame (.inr ⟨c.hook.exitKind_isExit _, rfl⟩)⟩
    · exact ⟨rfl, rfl⟩

theorem sift_moves (h : w.Sifts w') (c : Call) (s : CallStack) (stage stage' : Stage) :
    (c.moves w s stage stage').1 = (c.moves w' s stage stage').1 ∧
      (c.moves w s stage stage').2 = sift w.limit (w.mutes w')
        ((c.moves w' s stage stage').2.map fun r =>
          (r.depth? s.depth (c.moves w' s stage stage').1.depth, r)) := by
  unfold moves
  split
  · exact ⟨rfl, sift_greeting h ..⟩
  · obtain ⟨hstack, hrecords⟩ := sift_deed h c s
    refine ⟨hstack, ?_⟩
    rw [List.map_append, sift_append, ← hrecords, ← sift_greeting h]
  · exact ⟨rfl, h.frame (.inl ⟨Opening.kind_isEntry _, rfl, rfl⟩)⟩
  · exact ⟨rfl, rfl⟩

end Call

/-! ### What is let in -/

namespace Queue
variable {q : Queue} {e : UInt64}

theorem admits_iff : q.admits (some e) = true ↔ q.keepsOut e = false := by simp [admits]

theorem admits_eq_false_iff : q.admits (some e) = false ↔ q.keepsOut e = true := by simp [admits]

end Queue

namespace Tracer
variable {t : Tracer} {epoch : UInt64} {slot : Slot} {s : CallStack}

theorem frame_sealed (hk : t.queue.keepsOut epoch = true) (s : CallStack) (d : UInt32) (k : Kind)
    (m : MethodId) (ret : Option ReturnValue) :
    (t.frame epoch slot s d k m ret).queue.records = t.queue.records := by
  unfold frame
  dsimp only
  split
  · simp [write, Queue.append, Queue.verdict, modifyStack, hk]
  · rfl

end Tracer

namespace Call
variable {c : Call} {t : Tracer} {epoch : UInt64} {slot : Slot} {s : CallStack} {fresh : Bool}

theorem enter_sealed (hk : t.queue.keepsOut epoch = true) (slot : Slot) (o : Opening) :
    (c.enter t epoch slot o).queue.records = t.queue.records := by
  rcases h : t.roster.stack? slot with _ | s
  · simp only [enter, h]
  · rw [enter_eq h, Tracer.frame_sealed hk]

theorem greet_sealed (hk : t.queue.keepsOut epoch = true) :
    (c.greet t epoch s fresh).queue.records = t.queue.records := by
  unfold greet
  split
  · split <;> simp [Tracer.notify, Tracer.writeCreated, Queue.appendControl, hk]
  · rfl

theorem act_sealed (hk : t.queue.keepsOut epoch = true) (slot : Slot) (fresh : Bool) :
    (c.act t epoch slot fresh).1.queue.records = t.queue.records := by
  rcases h : t.roster.stack? slot with _ | s
  · simp only [act, h]
  have hgreet : (c.greet t epoch s fresh).queue.records = t.queue.records := greet_sealed hk
  have henter : ∀ (t' : Tracer) (o : Opening), t'.queue = (c.greet t epoch s fresh).queue →
      (c.enter t' epoch slot o).queue.records = t.queue.records := by
    intro t' o ht'
    rw [enter_sealed, ht', hgreet]
    rw [ht', Queue.keepsOut_congr (greet_touches h).closedFrom, hk]
  rw [act_eq h]
  split
  · dsimp only
    split
    · unfold invoke
      split
      · exact hgreet
      · exact henter _ _ rfl
    · exact henter _ _ rfl
  · split
    · rw [exit_eq h, Tracer.frame_sealed hk]
    · exact hgreet

/-- What a step of a call does to its stack and writes: all that it has to write, or nothing. -/
theorem Goes.moves {who : OsThread} {l l' : Local} {stage stage' : Stage}
    (h : c.Goes who l stage l' stage') (hslot : stage.slot? = some slot)
    (hs : l.tracer.roster.stack? slot = some s) :
    (l'.tracer.roster.stack? slot).map CallStack.depth =
      some (c.moves (l.tracer.scribe s.no) s stage stage').1.depth ∧
    (l.tracer.queue.admits stage.epoch? = true →
      l'.tracer.queue.dropped = l.tracer.queue.dropped →
      l'.tracer.written = l.tracer.written ++ (c.moves (l.tracer.scribe s.no) s stage stage').2) ∧
    (l.tracer.queue.admits stage.epoch? = false → l'.tracer.written = l.tracer.written) := by
  have hsame : ∀ {l' : Local} {f : CallStack → CallStack}, (f s).depth = s.depth →
      l'.tracer.roster.stack? slot = (l.tracer.roster.stack? slot).map f →
      l'.tracer.written = l.tracer.written →
      (c.moves (l.tracer.scribe s.no) s stage stage') = (s, []) →
      (l'.tracer.roster.stack? slot).map CallStack.depth =
        some (c.moves (l.tracer.scribe s.no) s stage stage').1.depth ∧
      (l.tracer.queue.admits stage.epoch? = true →
        l'.tracer.queue.dropped = l.tracer.queue.dropped →
        l'.tracer.written = l.tracer.written ++ (c.moves (l.tracer.scribe s.no) s stage stage').2) ∧
      (l.tracer.queue.admits stage.epoch? = false → l'.tracer.written = l.tracer.written) := by
    intro l' f hf hstack hwritten hmoves
    rw [hmoves, hstack, hs, hwritten, List.append_nil]
    exact ⟨congrArg some hf, fun _ _ => rfl, fun _ => rfl⟩
  have hid : l.tracer.roster.stack? slot = (l.tracer.roster.stack? slot).map id := by
    rw [Option.map_id, id]
  cases h with
  | lost hnone => cases hslot; rw [hs] at hnone; cases hnone
  | skip | clear | guarded => cases hslot; exact hsame rfl hid rfl rfl
  | @guard t memory epoch slot fresh s' hs' hg =>
    cases hslot
    obtain rfl : s' = s := Option.some.inj (hs'.symm.trans hs)
    exact hsame (f := fun _ => s'.bump) rfl Roster.stack?_modify_self rfl rfl
  | @act t memory epoch slot fresh =>
    cases hslot
    have hsealed : t.queue.admits (some epoch) = false →
        (c.act t epoch slot fresh).1.written = t.written := by
      intro hk
      rw [Tracer.written, act_sealed (Queue.admits_eq_false_iff.mp hk), Tracer.written]
    rcases c.act_cases epoch fresh hs with
      ⟨hstage, hs', hwritten⟩ | ⟨o, hstage, -, hs', hwritten⟩
    · refine ⟨?_, fun hk hd => ?_, hsealed⟩
      · rw [hs', hstage]
        rfl
      · rw [hwritten (Queue.admits_iff.mp hk) hd, hstage, List.append_assoc]
        rfl
    · refine ⟨?_, fun hk _ => ?_, hsealed⟩
      · rw [hs', hstage]
        rfl
      · rw [hwritten (Queue.admits_iff.mp hk), hstage]
        rfl
  | @tell t memory epoch slot o =>
    cases hslot
    refine ⟨?_, fun hk hd => ?_, fun hk => ?_⟩
    · rw [enter_stack hs]
      rfl
    · exact enter_written hs (Queue.admits_iff.mp hk) hd
    · have hsealed := enter_sealed (c := c) (Queue.admits_eq_false_iff.mp hk) slot o
      rw [Tracer.written, hsealed, Tracer.written]
  | close =>
    cases hslot
    exact hsame rfl Roster.stack?_modify_self rfl rfl
  | _ => cases hslot

/-- A call that has no stack yet writes nothing. -/
theorem Goes.written_of_slot?_eq_none {who : OsThread} {l l' : Local} {stage stage' : Stage}
    (h : c.Goes who l stage l' stage') (hslot : stage.slot? = none) :
    l'.tracer.written = l.tracer.written := by
  cases h with
  | suspended | start | find | denied | stranger | register | refuse | ended => rfl
  | _ => cases hslot

end Call

/-! ### Runs -/

namespace Machine
variable {m m' : Machine} {x : Move} {limit : UInt32}

def depthOf (m : Machine) (i : Nat) : UInt32 :=
  ((m.tracer.roster.stackOf i).map CallStack.depth).getD 0

/-- The depth of the stack of the thread that makes a move. -/
def depthFor (m : Machine) (x : Move) : UInt32 := x.mover?.elim 0 m.depthOf

/-- What a move writes, but for the times, with the depths of the frames. -/
def entries (m : Machine) (x : Move) : List (Option UInt32 × Record) :=
  (m.news x).map fun r => (r.depth? (m.depthFor x) ((m.step x).depthFor x), r.timeless)

/-- What a run writes, but for the times, with the depths of the frames. -/
def log (m : Machine) : List Move → List (Option UInt32 × Record)
  | [] => []
  | x :: xs => m.entries x ++ (m.step x).log xs

theorem entries_eq (m : Machine) (x : Move) :
    m.entries x = ((m.news x).map Record.timeless).map fun r =>
      (r.depth? (m.depthFor x) ((m.step x).depthFor x), r) := by
  rw [List.map_map]
  rfl

/-- The log leaves out nothing that is written. -/
theorem Steady.log_records (h : m.Steady) (xs : List Move) :
    (m.run xs).history.map Record.timeless =
      m.history.map Record.timeless ++ (m.log xs).map Prod.snd := by
  induction xs generalizing m with
  | nil => simp [log]
  | cons x xs ih =>
    rw [run_cons, ih (h.step x), h.history_step x, log, List.map_append, List.map_append,
      List.append_assoc, entries, List.map_map]
    rfl

/-- What is written from outside. -/
def control (m : Machine) : Move → List Record
  | .suspend => if m.tracer.suspension.suspended then [] else [m.tracer.marker .threadsSuspended]
  | .resume => if m.tracer.suspension.suspended then [m.tracer.marker .threadsResumed] else []
  | _ => []

theorem Steady.news_of_mover?_eq_none (h : m.Steady) (hx : x.mover? = none) :
    m.news x = m.control x := by
  have hflow := h.flow x
  generalize m.step x = m', m.news x = news at hflow
  cases hflow with
  | quiet hcontrols _ =>
    cases x with
    | suspend => simp only [controls, Bool.not_eq_false'] at hcontrols; simp [control, hcontrols]
    | resume => simp only [controls] at hcontrols; simp [control, hcontrols]
    | _ => rfl
  | advance => cases hx
  | suspend hs | resume hs => simp [control, hs]
  | reset | drain => rfl

theorem control_isEntry (m : Machine) (x : Move) :
    ∀ r ∈ m.control x, r.isEntry = false ∧ r.isExit = false := by
  intro r hr
  cases x with
  | suspend =>
    simp only [control] at hr
    split at hr
    · cases hr
    · rw [List.mem_singleton.mp hr]
      exact ⟨rfl, rfl⟩
  | resume =>
    simp only [control] at hr
    split at hr
    · rw [List.mem_singleton.mp hr]
      exact ⟨rfl, rfl⟩
    · cases hr
  | _ => cases hr

theorem control_of_bare (h : m.bare = m'.bare) (x : Move) :
    (m.control x).map Record.timeless = (m'.control x).map Record.timeless := by
  cases x with
  | suspend | resume => simp only [control, suspension_of_bare h]; split <;> rfl
  | _ => rfl

theorem news_call (m : Machine) (who : OsThread) (c : Call) (counted : Bool) :
    m.news (.call who c counted) = [] := by
  refine news_eq [] ?_
  rw [(Steady.call_wrote m who c counted).posts.records]

theorem news_of_idle {who : OsThread} (hact : m.active who.id = []) : m.news (.advance who) = [] := by
  refine news_eq [] ?_
  rw [step, advance_of_idle hact, List.append_nil]

theorem Steady.written_advance (h : m.Steady) {who : OsThread} {a : Activity} {rest : List Activity}
    (hact : m.active who.id = a :: rest) :
    (a.call.advance who ⟨m.tracer, m.memory who.id⟩ a.stage).1.tracer.written =
      m.tracer.written ++ (m.news (.advance who)).map Record.timeless := by
  obtain ⟨drops, hwrote⟩ := h.advance_wrote hact
  have hstep : (m.step (.advance who)).tracer.written =
      (a.call.advance who ⟨m.tracer, m.memory who.id⟩ a.stage).1.tracer.written := by
    simp only [Machine.step, Machine.advance, hact, Tracer.written]
    simp [proceed, put]
  rw [← hstep, Tracer.written, hwrote.posts.records, List.map_append, Tracer.written]

theorem Steady.news_of_slot?_eq_none (h : m.Steady) {who : OsThread} {a : Activity}
    {rest : List Activity} (hact : m.active who.id = a :: rest) (hslot : a.stage.slot? = none) :
    (m.news (.advance who)).map Record.timeless = [] := by
  have hwritten := h.written_advance hact
  rw [(a.call.goes_advance _ _).written_of_slot?_eq_none hslot] at hwritten
  exact List.self_eq_append_right.mp hwritten

/-- What a call writes with its next step. -/
theorem Orderly.news_advance (ho : m.Orderly limit) (h : m.Steady) {who : OsThread} {a : Activity}
    {rest : List Activity} (hact : m.active who.id = a :: rest) {slot : Slot} {s : CallStack}
    (hslot : a.stage.slot? = some slot) (hs : m.tracer.roster.stack? slot = some s)
    (hd : (m.step (.advance who)).tracer.queue.dropped = m.tracer.queue.dropped) :
    let moves := a.call.moves (m.tracer.scribe s.no) s a.stage
      (a.call.advance who ⟨m.tracer, m.memory who.id⟩ a.stage).2
    m.depthOf who.id = s.depth ∧ (m.step (.advance who)).depthOf who.id = moves.1.depth ∧
      (m.news (.advance who)).map Record.timeless =
        if m.tracer.queue.admits a.stage.epoch? then moves.2 else [] := by
  intro moves
  have hi := ho.slot who.id a (by rw [hact]; exact List.mem_cons_self) slot hslot
  have hgoes : a.call.Goes who ⟨m.tracer, m.memory who.id⟩ a.stage
      (a.call.advance who ⟨m.tracer, m.memory who.id⟩ a.stage).1
      (a.call.advance who ⟨m.tracer, m.memory who.id⟩ a.stage).2 := a.call.goes_advance _ _
  have heq : m.step (.advance who) = m.proceed who a rest := by
    simp only [Machine.step, Machine.advance, hact]
  obtain ⟨hdepth, hadmitted, hsealed⟩ := hgoes.moves hslot hs
  have hwritten := h.written_advance hact
  have hdropped : (a.call.advance who ⟨m.tracer, m.memory who.id⟩ a.stage).1.tracer.queue.dropped =
      m.tracer.queue.dropped := by
    rw [← hd, heq]
    simp [proceed, put]
  refine ⟨by rw [depthOf, Roster.stackOf_of_slot? hi, hs]; rfl, ?_, ?_⟩
  · have hroster : (m.step (.advance who)).tracer.roster =
        (a.call.advance who ⟨m.tracer, m.memory who.id⟩ a.stage).1.tracer.roster := by
      rw [heq]
      simp [proceed, put]
    have hi' : (m.step (.advance who)).tracer.roster.slot? who.id = some slot := by
      rw [hroster]
      cases hgoes.seats with
      | same hr _ => exact (hr.slot? who.id).trans hi
      | enlist hstage => rw [hstage] at hslot; cases hslot
    rw [depthOf, Roster.stackOf_of_slot? hi', hroster, hdepth]
    rfl
  · split
    · rename_i hk
      rw [hadmitted hk hdropped] at hwritten
      exact (List.append_cancel_left hwritten).symm
    · rename_i hk
      rw [hsealed (by simpa using hk)] at hwritten
      exact List.self_eq_append_right.mp hwritten

/-! ### Two runs -/

/-- Two machines that differ in their records and in the settings that are about them. -/
structure Twins (limit : UInt32) (m m' : Machine) : Prop where
  bare : m.bare = m'.bare
  sifts : ∀ no, (m.tracer.scribe no).Sifts (m'.tracer.scribe no)
  orderly : m.Orderly limit
  orderly' : m'.Orderly limit
  steady : m.Steady
  steady' : m'.Steady
  dropped : m.tracer.queue.dropped = 0
  dropped' : m'.tracer.queue.dropped = 0

namespace Twins

theorem admits (h : Twins limit m m') (epoch? : Option UInt64) :
    m.tracer.queue.admits epoch? = m'.tracer.queue.admits epoch? := by
  refine Queue.admits_congr ?_ epoch?
  rw [h.steady.closedFrom, h.steady'.closedFrom, suspension_of_bare h.bare]

theorem news_of_mover?_eq_none (h : Twins limit m m') (hx : x.mover? = none) :
    (m.news x).map Record.timeless =
      sift m.tracer.depthLimit (m.tracer.captureReturns != m'.tracer.captureReturns)
        (m'.entries x) := by
  rw [h.steady.news_of_mover?_eq_none hx, entries_eq, h.steady'.news_of_mover?_eq_none hx,
    control_of_bare h.bare, sift_of_no_frame]
  intro r hr
  obtain ⟨r', hr', rfl⟩ := List.mem_map.mp hr
  exact m'.control_isEntry x r' hr'

theorem news_advance (h : Twins limit m m') (who : OsThread) (hd : NoDrop m (.advance who))
    (hd' : NoDrop m' (.advance who)) :
    (m.news (.advance who)).map Record.timeless =
      sift m.tracer.depthLimit (m.tracer.captureReturns != m'.tracer.captureReturns)
        (m'.entries (.advance who)) := by
  have hactive : m'.active who.id = m.active who.id := by rw [active_of_bare h.bare]
  rcases hact : m.active who.id with _ | ⟨a, rest⟩
  · rw [news_of_idle hact, entries, news_of_idle (hactive.trans hact)]
    rfl
  have hact' := hactive.trans hact
  rcases hslot : a.stage.slot? with _ | slot
  · rw [h.steady.news_of_slot?_eq_none hact hslot, entries_eq,
      h.steady'.news_of_slot?_eq_none hact' hslot]
    rfl
  have hi := h.orderly.slot who.id a (by rw [hact]; exact List.mem_cons_self) slot hslot
  obtain ⟨s, hs⟩ := h.orderly.sound.stack?_of_slot? hi
  have hs' : m'.tracer.roster.stack? slot = some s := by rw [← roster_of_bare h.bare, hs]
  obtain ⟨-, -, hnews⟩ := h.orderly.news_advance h.steady hact hslot hs (hd.trans h.dropped.symm)
  obtain ⟨hbefore, hafter, hnews'⟩ :=
    h.orderly'.news_advance h.steady' hact' hslot hs' (hd'.trans h.dropped'.symm)
  have hstage : (a.call.advance who ⟨m'.tracer, m'.memory who.id⟩ a.stage).2 =
      (a.call.advance who ⟨m.tracer, m.memory who.id⟩ a.stage).2 := by
    have hbare : m'.tracer.bare = m.tracer.bare := (congrArg (·.tracer) h.bare.symm :)
    rw [(a.call.advance_bare who m'.tracer _ a.stage).2.2,
      (a.call.advance_bare who m.tracer _ a.stage).2.2, hbare, memory_of_bare h.bare]
  rw [hstage] at hafter hnews'
  rw [entries_eq, hnews, hnews', ← h.admits]
  split
  · rw [(Call.sift_moves (h.sifts s.no) a.call s a.stage _).2]
    rw [← hbefore, ← hafter]
    rfl
  · rfl

/-- What a move writes is what is left of what the other tracer writes. -/
theorem news (h : Twins limit m m') (x : Move) (hd : NoDrop m x) (hd' : NoDrop m' x) :
    (m.news x).map Record.timeless =
      sift m.tracer.depthLimit (m.tracer.captureReturns != m'.tracer.captureReturns)
        (m'.entries x) := by
  cases x with
  | call who c counted => rw [news_call, entries, news_call]; rfl
  | advance who => exact h.news_advance who hd hd'
  | _ => exact h.news_of_mover?_eq_none rfl

theorem step (h : Twins limit m m') {x : Move} (hx : x.isReset = false) (hd : NoDrop m x)
    (hd' : NoDrop m' x) : Twins limit (m.step x) (m'.step x) where
  bare := by rw [step_bare, h.bare, ← step_bare]
  sifts no := by rw [m.scribe_step x hx, m'.scribe_step x hx]; exact h.sifts no
  orderly := h.orderly.step x hx
  orderly' := h.orderly'.step x hx
  steady := h.steady.step x
  steady' := h.steady'.step x
  dropped := hd
  dropped' := hd'

theorem log (h : Twins limit m m') {xs : List Move} (hx : ∀ x ∈ xs, x.isReset = false)
    (hd : Along NoDrop m xs) (hd' : Along NoDrop m' xs) :
    (m.log xs).map Prod.snd =
      sift m.tracer.depthLimit (m.tracer.captureReturns != m'.tracer.captureReturns)
        (m'.log xs) := by
  induction xs generalizing m m' with
  | nil => rfl
  | cons x xs ih =>
    obtain ⟨hx0, hx⟩ := List.forall_mem_cons.mp hx
    have hstep := ih (h.step hx0 hd.1 hd'.1) hx hd.2 hd'.2
    have hscribe := congrFun (m.scribe_step x hx0) .all
    have hscribe' := congrFun (m'.scribe_step x hx0) .all
    have hlimit : (m.step x).tracer.depthLimit = m.tracer.depthLimit := congrArg Scribe.limit hscribe
    have hcaptures : (m.step x).tracer.captureReturns = m.tracer.captureReturns :=
      congrArg Scribe.captures hscribe
    have hcaptures' : (m'.step x).tracer.captureReturns = m'.tracer.captureReturns :=
      congrArg Scribe.captures hscribe'
    rw [hlimit, hcaptures, hcaptures'] at hstep
    rw [Machine.log, Machine.log, List.map_append, sift_append, hstep, ← h.news x hd.1 hd'.1, entries,
      List.map_map]
    rfl

theorem refl (h : Twins limit m m') : Twins limit m' m' where
  bare := rfl
  sifts _ := ⟨rfl, UInt32.le_refl _, id⟩
  orderly := h.orderly'
  orderly' := h.orderly'
  steady := h.steady'
  steady' := h.steady'
  dropped := h.dropped'
  dropped' := h.dropped'

/-- No frame is recorded beyond the limit. -/
theorem depth_le (h : Twins limit m m') {xs : List Move} (hx : ∀ x ∈ xs, x.isReset = false)
    (hd' : Along NoDrop m' xs) : ∀ e ∈ m'.log xs, e.1.all (· ≤ m'.tracer.depthLimit) = true := by
  have hlog := congrArg List.length (h.refl.log hx hd' hd')
  rw [List.length_map, sift, List.length_map] at hlog
  exact List.length_filter_eq_length_iff.mp hlog.symm

end Twins

end Machine

/-- Two tracers whose settings differ in the depth limit, the capacity of the queue and the capture of
return values. Whatever is done to both, whoever does it gets to know the same, told invocations
included, but for what a collector gets; and afterwards all that is known but for the records is
equal: stacks, registrations, slots, invoked methods, suspension. If nothing is reset or dropped, the
first tracer, which has the lower limit and captures no more than the second, writes what the second
does, in the same order, without the records of frames that are deeper than its limit, and without
return values if only the second one captures them. -/
theorem recording_never_influences_bookkeeping (id : Nat) (s : Settings) (hasHandler : Bool)
    (limit : UInt32) (capacity : UInt64) (captures : Bool) (xs : List Move) :
    let s' : Settings :=
      { s with depthLimit := limit, bufferCapacity := capacity, captureReturns := captures }
    let m := Machine.new (.new id s hasHandler)
    let m' := Machine.new (.new id s' hasHandler)
    (m.outcomes xs).map Outcome.bare = (m'.outcomes xs).map Outcome.bare ∧
    ((m.run xs).outlook .zero).bare = ((m'.run xs).outlook .zero).bare ∧
    ((∀ x ∈ xs, x.isReset = false) → Machine.Along Machine.NoDrop m xs →
      Machine.Along Machine.NoDrop m' xs → s.depthLimit ≤ limit →
      (s.captureReturns = true → captures = true) →
      (m'.log xs).map Prod.snd = (m'.run xs).history.map Record.timeless ∧
      (∀ e ∈ m'.log xs, e.1.all (· ≤ limit) = true) ∧
      (m.run xs).history.map Record.timeless =
        sift s.depthLimit (s.captureReturns != captures) (m'.log xs)) := by
  intro s' m m'
  have hbare : m.bare = m'.bare := rfl
  refine ⟨Machine.outcomes_bare hbare xs, Machine.outlook_bare (Machine.run_bare hbare xs) _, ?_⟩
  intro hx hd hd' hlimit hcaptures
  have htwins : Machine.Twins s.threadSlots m m' :=
    { bare := hbare
      sifts := fun _ => ⟨rfl, hlimit, hcaptures⟩
      orderly := .new id s hasHandler
      orderly' := .new id s' hasHandler
      steady := .new id s hasHandler
      steady' := .new id s' hasHandler
      dropped := rfl
      dropped' := rfl }
  have hrecords := htwins.steady.log_records xs
  have hrecords' := htwins.steady'.log_records xs
  refine ⟨?_, htwins.depth_le hx hd', ?_⟩
  · rw [hrecords']
    rfl
  · rw [hrecords, htwins.log hx hd hd']
    rfl

/-- A method is called within a root and returns true. The first tracer records frames down to depth 1
and no return values: of the method's frame it writes nothing. -/
theorem recording_never_influences_bookkeeping_depth_two :
    let s : Settings := { Settings.default with depthLimit := 1 }
    let calls (h : Hook) : List Move :=
      .call ⟨0, none⟩ ⟨h, ⟨1⟩, some (.bool true)⟩ true :: List.replicate 5 (.advance ⟨0, none⟩)
    let xs := calls .rootEntry ++ calls .methodEntry ++ calls .methodExit ++ calls .rootExit
    let m := Machine.new (.new 0 s false)
    let m' := Machine.new (.new 0 { s with
      depthLimit := 0xffffffff
      bufferCapacity := 8
      captureReturns := true } false)
    (∀ x ∈ xs, x.isReset = false) ∧ Machine.Along Machine.NoDrop m xs ∧
      Machine.Along Machine.NoDrop m' xs ∧ s.depthLimit ≤ 0xffffffff ∧
      (s.captureReturns = true → true = true) ∧
      (m.run xs).history.map Record.timeless =
        sift s.depthLimit (s.captureReturns != true) (m'.log xs) ∧
      (m.run xs).history.map (fun r => (r.kind, r.payloadTag)) = [(9, 0), (1, 0), (2, 0)] ∧
      (m'.run xs).history.map (fun r => (r.kind, r.payloadTag)) =
        [(9, 0), (1, 0), (3, 0), (4, 1), (2, 1)] := by
  intro s calls xs m m'
  have hx : ∀ x ∈ xs, x.isReset = false := by decide
  have hd : Machine.Along Machine.NoDrop m xs := by decide +kernel
  have hd' : Machine.Along Machine.NoDrop m' xs := by decide +kernel
  have hlimit : s.depthLimit ≤ 0xffffffff := by decide
  obtain ⟨-, -, hrecords⟩ :=
    recording_never_influences_bookkeeping 0 s false 0xffffffff 8 true xs
  obtain ⟨-, -, hsift⟩ := hrecords hx hd hd' hlimit fun _ => rfl
  exact ⟨hx, hd, hd', hlimit, fun _ => rfl, hsift, by decide +kernel, by decide +kernel⟩

end MethodTrace
