import MethodTrace.Proofs.Progress
import MethodTrace.Proofs.Scribe

/-!
# What a call posts

`Posts epoch? t t' news drops told`: a call has put `news` into the queue, `drops` of its records
were dropped and the registrations of the threads in `told` announced, and the tally has counted just
that. Every step of a call is of this kind (`Goes.posts`). Markers are written by no call.
-/

namespace MethodTrace

namespace Record

/-- Whether the record tells of a suspension or of its end. -/
def isMarker (r : Record) : Bool := r.isOf .threadsSuspended || r.isOf .threadsResumed

theorem isMarker_encode (e : Event) :
    e.encode.isMarker = decide (e.kind = .threadsSuspended ∨ e.kind = .threadsResumed) := by
  simp [isMarker]

end Record

/-- The numbers of the threads of whose registration is told. -/
def announced (rs : List Record) : List UInt32 :=
  (rs.filter (·.isOf .threadCreated)).map Record.thread

@[simp] theorem announced_nil : announced [] = [] := rfl

theorem announced_singleton {r : Record} (h : r.isOf .threadCreated = true) :
    announced [r] = [r.thread] := by
  simp [announced, h]

@[simp] theorem announced_append (rs rs' : List Record) :
    announced (rs ++ rs') = announced rs ++ announced rs' := by
  simp [announced]

/-- Whether a call is let in that noted `epoch?`. -/
def Queue.admits (q : Queue) (epoch? : Option UInt64) : Bool := epoch?.all fun e => !q.keepsOut e

theorem Queue.admits_congr {q q' : Queue} (h : q'.closedFrom = q.closedFrom)
    (epoch? : Option UInt64) : q'.admits epoch? = q.admits epoch? := by
  simp only [admits, keepsOut, h]

namespace Tracer

/-- What has been posted by a call that noted `epoch?`, if it has noted one. A seal may keep the
record of a registration out, which is counted all the same. -/
structure Posts (epoch? : Option UInt64) (t t' : Tracer) (news : List Record) (drops : Nat)
    (told : List UInt32) : Prop where
  records : t'.queue.records.toList = t.queue.records.toList ++ news
  unmarked : ∀ r ∈ news, r.isMarker = false
  closedFrom : t'.queue.closedFrom = t.queue.closedFrom
  written : t'.tally.written = t.tally.written + .ofNat news.length
  dropped : t'.tally.dropped = t.tally.dropped + .ofNat drops
  unreported : t'.queue.dropped = t.queue.dropped + .ofNat drops
  registered : t'.tally.registered = t.tally.registered + .ofNat told.length
  announced : announced news = if t.queue.admits epoch? then told else []

variable {epoch? : Option UInt64} {epoch : UInt64} {t t' t'' : Tracer} {slot : Slot} {s : CallStack}

namespace Posts
variable {news news' : List Record} {drops drops' : Nat} {told told' : List UInt32}

theorem nothing (hr : t'.queue.records = t.queue.records)
    (hc : t'.queue.closedFrom = t.queue.closedFrom) (hd : t'.queue.dropped = t.queue.dropped)
    (ht : t'.tally = t.tally) : Posts epoch? t t' [] 0 [] where
  records := by rw [hr, List.append_nil]
  unmarked := List.forall_mem_nil _
  closedFrom := hc
  written := by rw [ht]; simp
  dropped := by rw [ht]; simp
  unreported := by rw [hd]; simp
  registered := by rw [ht]; simp
  announced := (ite_self _).symm

theorem refl (t : Tracer) : Posts epoch? t t [] 0 [] := nothing rfl rfl rfl rfl

theorem trans (h : Posts epoch? t t' news drops told)
    (h' : Posts epoch? t' t'' news' drops' told') :
    Posts epoch? t t'' (news ++ news') (drops + drops') (told ++ told') where
  records := by rw [h'.records, h.records, List.append_assoc]
  unmarked r hr := (List.mem_append.mp hr).elim (h.unmarked r) (h'.unmarked r)
  closedFrom := h'.closedFrom.trans h.closedFrom
  written := by rw [h'.written, h.written, List.length_append, UInt64.ofNat_add, UInt64.add_assoc]
  dropped := by rw [h'.dropped, h.dropped, UInt64.ofNat_add, UInt64.add_assoc]
  unreported := by rw [h'.unreported, h.unreported, UInt64.ofNat_add, UInt64.add_assoc]
  registered := by
    rw [h'.registered, h.registered, List.length_append, UInt64.ofNat_add, UInt64.add_assoc]
  announced := by
    rw [announced_append, h.announced, h'.announced, Queue.admits_congr h.closedFrom]
    split <;> rfl

end Posts

theorem modifyStack_posts (t : Tracer) (slot : Slot) (f : CallStack → CallStack) :
    Posts epoch? t (t.modifyStack slot f) [] 0 [] :=
  .nothing rfl rfl rfl rfl

theorem notify_posts : Posts epoch? t t.notify [] 0 [] :=
  .nothing (by simp [notify]) (by simp [notify]) (by simp [notify]) rfl

theorem write_posts (t : Tracer) (epoch : UInt64) (no : ThreadNo) {k : Kind} (hk : k.isControl = false) (m : MethodId)
    (ret : Option ReturnValue) :
    ∃ news drops, Posts (some epoch) t (t.write epoch no k m ret) news drops [] := by
  have hmarker : (t.frameRecord no k m ret).isMarker = false := by
    rw [frameRecord, Record.isMarker_encode]
    cases k <;> first | rfl | cases hk
  have hcreated : (t.frameRecord no k m ret).isOf .threadCreated = false := by
    rw [frameRecord, Record.isOf_encode]
    cases k <;> first | rfl | cases hk
  rcases hv : t.queue.verdict epoch with (n | _) | _
  · refine ⟨[], 1, ?_⟩
    constructor <;> simp [write, Queue.append, hv, Queue.drop, Tally.countAppended,
      Tally.countRefused]
  · refine ⟨[], 0, ?_⟩
    constructor <;> simp [write, Queue.append, hv, Tally.countAppended, Tally.countRefused]
  · refine ⟨[t.frameRecord no k m ret], 0, ?_⟩
    constructor <;> simp [write, Queue.append, hv, Queue.push, Tally.countAppended,
      Tally.countWritten, hmarker, MethodTrace.announced, hcreated]

theorem writeCreated_posts (t : Tracer) (epoch : UInt64) (no : ThreadNo) :
    ∃ news, Posts (some epoch) t (t.writeCreated epoch no) news 0 [no.val] := by
  cases hk : t.queue.keepsOut epoch with
  | true =>
    refine ⟨[], ?_⟩
    constructor <;> simp [writeCreated, Queue.appendControl, Queue.controlVerdict, hk,
      Tally.countAppended, Tally.countRefused, Tally.countRegistered, Queue.admits]
  | false =>
    let r := Event.encode ⟨.threadCreated, .none, no, t.clock, none⟩
    have hmarker : r.isMarker = false := Record.isMarker_encode _
    have hcreated : announced [r] = [no.val] := announced_singleton (Record.isOf_encode _ _)
    refine ⟨[r], ?_⟩
    constructor <;> simp [writeCreated, Queue.appendControl, Queue.controlVerdict, hk, Queue.push,
      Tally.countAppended, Tally.countWritten, Tally.countRegistered, Queue.admits, hmarker,
      hcreated, r]

theorem frame_posts (t : Tracer) (epoch : UInt64) (slot : Slot) (s : CallStack) (d : UInt32) {k : Kind}
    (hk : k.isControl = false) (m : MethodId) (ret : Option ReturnValue) :
    ∃ news drops, Posts (some epoch) t (t.frame epoch slot s d k m ret) news drops [] := by
  unfold frame
  dsimp only
  split
  · obtain ⟨news, drops, h⟩ := write_posts (t.modifyStack slot fun _ => s) epoch s.no hk m ret
    exact ⟨_, _, (modifyStack_posts t slot fun _ => s).trans h⟩
  · exact ⟨_, _, modifyStack_posts t slot fun _ => s⟩

end Tracer

theorem Opening.kind_isControl (o : Opening) : o.kind.isControl = false := by cases o <;> rfl

theorem Hook.exitKind_isControl (h : Hook) (s : CallStack) : (h.exitKind s).isControl = false := by
  unfold exitKind
  split
  · rfl
  · split <;> rfl

namespace Call
variable {c : Call} {slot : Slot} {epoch : UInt64} {t : Tracer} {s : CallStack} {fresh : Bool}
open Tracer

/-- Whose registration a call announces that acts on a stack. -/
def announces (c : Call) (fresh : Bool) (s : CallStack) : List UInt32 :=
  if c.hook.enrolls && fresh then [s.no.val] else []

theorem greet_posts (c : Call) (t : Tracer) (epoch : UInt64) (s : CallStack) (fresh : Bool) :
    ∃ news, Posts (some epoch) t (c.greet t epoch s fresh) news 0 (c.announces fresh s) := by
  unfold greet announces
  cases c.hook.enrolls with
  | false => exact ⟨_, .refl t⟩
  | true =>
    cases fresh with
    | false => exact ⟨_, notify_posts⟩
    | true =>
      obtain ⟨news, h⟩ := t.writeCreated_posts epoch s.no
      exact ⟨_, h.trans notify_posts⟩

theorem enter_posts (c : Call) (t : Tracer) (epoch : UInt64) (slot : Slot) (o : Opening) :
    ∃ news drops, Posts (some epoch) t (c.enter t epoch slot o) news drops [] := by
  rcases h : t.roster.stack? slot with _ | s
  · simp only [enter, h]
    exact ⟨_, _, .refl t⟩
  · rw [enter_eq h]
    exact frame_posts _ _ _ _ _ o.kind_isControl _ _

theorem exit_posts : ∃ news drops, Posts (some epoch) t (c.exit t epoch slot) news drops [] := by
  rcases h : t.roster.stack? slot with _ | s
  · simp only [exit, h]
    exact ⟨_, _, .refl t⟩
  · rw [exit_eq h]
    exact frame_posts _ _ _ _ _ (Hook.exitKind_isControl _ _) _ _

theorem invoke_posts (c : Call) (t : Tracer) (epoch : UInt64) (slot : Slot) (o : Opening) :
    ∃ news drops, Posts (some epoch) t (c.invoke t epoch slot o).1 news drops [] := by
  have hrecord : Posts (some epoch) t (t.recordInvocation c.method) [] 0 [] :=
    .nothing rfl rfl rfl rfl
  unfold invoke
  split
  · exact ⟨_, _, hrecord⟩
  · obtain ⟨news, drops, h⟩ := c.enter_posts (t.recordInvocation c.method) epoch slot o
    exact ⟨_, _, hrecord.trans h⟩

theorem greet_of_isExit (h : c.hook.isExit = true) : c.greet t epoch s fresh = t := by
  simp [greet, Hook.enrolls_of_isExit h]

/-- A call that registered its thread announces that before it writes anything else. -/
theorem act_posts_greet (c : Call) (epoch : UInt64) (fresh : Bool)
    (h : t.roster.stack? slot = some s) :
    ∃ news drops, Posts (some epoch) (c.greet t epoch s fresh) (c.act t epoch slot fresh).1 news
      drops [] := by
  rw [act_eq h]
  split
  · rename_i o _
    have hprepare : Posts (some epoch) _ _ [] 0 [] :=
      modifyStack_posts (c.greet t epoch s fresh) slot fun _ => o.prepare s
    dsimp only
    split
    · obtain ⟨news, drops, h'⟩ := c.invoke_posts
        ((c.greet t epoch s fresh).modifyStack slot fun _ => o.prepare s) epoch slot o
      exact ⟨_, _, hprepare.trans h'⟩
    · obtain ⟨news, drops, h'⟩ := c.enter_posts
        ((c.greet t epoch s fresh).modifyStack slot fun _ => o.prepare s) epoch slot o
      exact ⟨_, _, hprepare.trans h'⟩
  · split
    · rename_i hexit
      rw [greet_of_isExit hexit]
      exact exit_posts
    · exact ⟨_, _, .refl _⟩

theorem act_posts (c : Call) (epoch : UInt64) (fresh : Bool) (h : t.roster.stack? slot = some s) :
    ∃ news drops, Posts (some epoch) t (c.act t epoch slot fresh).1 news drops
      (c.announces fresh s) := by
  obtain ⟨news, hgreet⟩ := c.greet_posts t epoch s fresh
  obtain ⟨news', drops, hact⟩ := c.act_posts_greet epoch fresh h
  exact ⟨_, _, by simpa using hgreet.trans hact⟩

end Call

end MethodTrace
