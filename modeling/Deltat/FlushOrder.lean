import Deltat.EntityIds
import Deltat.WriterQueue

/-! # In which order records reach the disk

Requests queue their records while they hold their locks, and the log writer flushes its queue
from the front. A write that waits for its flush under its locks lets nobody queue a record of
the same resource behind it. So as long as the writer runs, the records of a resource that are
not flushed are holds, bookings and commits, and behind them at most one other record.
-/

namespace Deltat

open Lib Machine

/-- Whether a record may reach memory before it is durable: only those of holds, bookings and
    commits do. -/
def Event.early : Event → Bool
  | .holdPlaced .. | .bookingConfirmed .. | .holdsCommitted _ => true
  | _ => false

namespace Tenant

variable {shards : Shards} {t t' : Tenant} {a : Action}

/-! ## The records of one resource -/

section Resource

variable {r : Ulid}

/-- The changes of a resource that a request has queued and not applied. -/
def changesFor (task : Task) (h : Handle) : List Event := (task.pending.filter (·.1 = h)).map (·.2)

/-- Whether a request has records queued and waits for their flush before it changes memory. -/
def blocked (t : Tenant) (i : TaskId) : Bool :=
  match t.tasks i with
  | .sent request _ _ => !t.mayApply i request
  | _ => false

theorem sent_of_blocked {i : TaskId} (blocked : t.blocked i) : ∃ request held pending,
    t.tasks i = .sent request held pending ∧ t.mayApply i request = false := by
  unfold Tenant.blocked at blocked
  split at blocked
  · next phase => exact ⟨_, _, _, phase, by simpa using blocked⟩
  · cases blocked

/-- The changes of a resource that whoever has locked it has queued and not applied. -/
def locked (t : Tenant) (r : Ulid) : List Event :=
  (t.lockedBy (t.memory.current r)).elim [] fun i => changesFor (t.tasks i) (t.memory.current r)

/-- Whether they wait for their flush. -/
def waitsOn (t : Tenant) (r : Ulid) : Bool := (t.lockedBy (t.memory.current r)).any t.blocked

theorem waitsOn_iff {r : Ulid} :
    t.waitsOn r = true ↔ ∃ i, t.lockedBy (t.memory.current r) = some i ∧ t.blocked i = true :=
  Option.any_eq_true ..

/-- Those that may be applied only when they are durable. -/
def heldBack (t : Tenant) (r : Ulid) : List Event := if t.waitsOn r then t.locked r else []

/-- Those that may be applied now. -/
def owed (t : Tenant) (r : Ulid) : List Event := if t.waitsOn r then [] else t.locked r

/-- The changes of a resource by holds, bookings and commits that are queued and not flushed. -/
def earlyOn (t : Tenant) (r : Ulid) : List Event :=
  (t.writer.unflushed.filter Event.early).flatMap (Event.changesOn r)

theorem filter_untouched {records : List Event} (nothing : records.flatMap (Event.changesOn r) = []) :
    (records.filter Event.early).flatMap (Event.changesOn r) = [] :=
  List.flatMap_eq_nil_iff.mpr fun ev inside => List.flatMap_eq_nil_iff.mp nothing ev (List.mem_filter.mp inside).1

theorem earlyOn_append {new : List Event} (unflushed : t'.writer.unflushed = t.writer.unflushed ++ new) :
    t'.earlyOn r = t.earlyOn r ++ (new.filter Event.early).flatMap (Event.changesOn r) := by
  simp only [earlyOn, unflushed, List.filter_append, List.flatMap_append]

/-- What the queued records of a resource are, while the writer runs. -/
def Split (t : Tenant) (r : Ulid) : Prop :=
  t.writer.unflushed.flatMap (Event.changesOn r) = t.earlyOn r ++ t.heldBack r

/-- A record of the resource that waits for its flush is queued by whoever has locked it. -/
def LateHeld (t : Tenant) (r : Ulid) : Prop :=
  ∀ c ∈ t.writer.queue, ∀ ev ∈ c.records, ev.early = false → ev.changesOn r ≠ [] →
    ∃ i, c.sender = .request i ∧ t.lockedBy (t.memory.current r) = some i ∧ t.blocked i

/-- Nothing of the resource is queued behind a record that waits for its flush. -/
def LateLast (r : Ulid) (queue : List WalCommand) : Prop :=
  ∀ ahead c behind, queue = ahead ++ c :: behind → ∀ ev ∈ c.records, ev.early = false → ev.changesOn r ≠ [] →
    ∀ later ∈ behind.flatMap WalCommand.records, later.changesOn r = []

theorem LateLast.drop {r : Ulid} {queue : List WalCommand} (last : LateLast r queue) (n : Nat) :
    LateLast r (queue.drop n) := by
  intro ahead c behind split
  apply last (queue.take n ++ ahead) c behind
  rw [List.append_assoc, ← split, List.take_append_drop]

theorem LateLast.push {r : Ulid} {queue : List WalCommand} (last : LateLast r queue) {command : WalCommand}
    (allowed : (∀ ev ∈ command.records, ev.changesOn r = []) ∨
      ∀ c ∈ queue, ∀ ev ∈ c.records, ev.early = false → ev.changesOn r = []) : LateLast r (queue ++ [command]) := by
  intro ahead c behind split ev recorded kind some later inside
  rcases List.eq_nil_or_concat behind with rfl | ⟨front, back, rfl⟩
  · cases inside
  · rw [List.concat_eq_append, ← List.cons_append, ← List.append_assoc] at split
    obtain ⟨before, rfl⟩ := List.append_singleton_inj.mp split
    rcases allowed with untouched | early
    · rw [List.concat_eq_append, List.flatMap_append, List.flatMap_singleton] at inside
      rcases List.mem_append.mp inside with there | now
      · exact last ahead c front before ev recorded kind some later there
      · exact untouched later now
    · exact absurd (early c (by rw [before]; simp) ev recorded kind) some

/-- The records of a resource that nobody is deleting reach the disk in the order in which they
    were queued, and only one that is held back comes behind its holds, bookings and commits. -/
structure InOrder (t : Tenant) (r : Ulid) : Prop where
  queued : t.Queued
  locks : t.Locks
  standing : ∀ stage, t.topology ≠ .deleting r stage
  handles : ∀ i, ∀ h ∈ (t.tasks i).handles, h.1 = r → h = t.memory.current r
  bound : ∀ i, (t.tasks i).Bound fun _ => True
  kinds : ∀ i request held records, t.tasks i = .sending request held records →
    ∀ ev ∈ records, ev.early = request.1.early
  split : t.writer.failed = false → t.Split r ∧ t.LateHeld r
  last : t.writer.failed = false → LateLast r t.writer.queue

theorem on_inOrder (e : Engine) (r : Ulid) : (on e).InOrder r where
  queued := on_queued e
  locks := on_locks e
  standing _ same := by cases same
  handles _ _ inside := (List.not_mem_nil inside).elim
  bound _ := .plain (fun _ _ _ same => by cases same) rfl
  kinds _ _ _ _ same := by cases same
  split _ := ⟨rfl, fun _ inside => (List.not_mem_nil inside).elim⟩
  last _ ahead c behind split := by simp [on] at split

/-! ### Requests -/

/-- A request that applies early writes holds, bookings and commits, any other one writes none. -/
theorem admitted_early {e : Engine} {guard : Ulid → Option ResourceState} {rules : Ulid → InheritedRules}
    {targets : List Ulid} {request : Request} {records : List Event}
    (passed : request.admitRecords e guard rules targets = .ok records) :
    ∀ ev ∈ records, ev.early = request.early := by
  cases request with
  | addRule | updateResource =>
      obtain ⟨_, _, passed⟩ := Outcome.bind_ok.mp passed
      first
        | cases passed
        | (obtain ⟨_, _, same⟩ := Outcome.bind_ok.mp passed; cases same)
      exact List.forall_mem_singleton.mpr rfl
  | updateRule | removeRule | removeHold | cancelBooking =>
      obtain ⟨rid, _, _, rfl, _, _⟩ := Request.admitEntity_ok passed
      exact List.forall_mem_singleton.mpr rfl
  | placeHold | confirmBooking =>
      obtain ⟨_, _, same⟩ := Outcome.bind_ok.mp passed
      cases same
      exact List.forall_mem_singleton.mpr rfl
  | batchPlaceHolds | batchConfirmBookings =>
      obtain ⟨_, _, same⟩ := Outcome.bind_ok.mp passed
      cases same
      exact List.forall_mem_map.mpr fun _ _ => rfl
  | commitHolds =>
      obtain ⟨_, _, same⟩ := Outcome.bind_ok.mp passed
      cases same
      exact List.forall_mem_singleton.mpr rfl

/-! ### Steps of others -/

theorem Took.standing (took : t.Took shards a t') (spares : a ≠ .delete r)
    (standing : ∀ stage, t.topology ≠ .deleting r stage) (stage : Stage) : t'.topology ≠ .deleting r stage := by
  intro same
  cases took with
  | delete => cases same; exact spares rfl
  | unlink phase | clear phase | sendDelete phase => cases same; exact standing _ phase
  | create | sendCreate | finishCreate | finishDelete | abandon => cases same
  | _ => exact standing _ same

/-- A resource that nobody deletes is not replaced. -/
theorem Took.current (took : t.Took shards a t') (standing : ∀ stage, t.topology ≠ .deleting r stage) :
    t'.memory.current r = t.memory.current r := by
  cases took with
  | apply => simp only [Memory.current, Memory.apply_removed]
  | @finishDelete id phase =>
      have other : r ≠ id := fun same => standing .sent (by rw [phase, same])
      simp [Memory.current, Memory.remove, other]
  | _ => rfl

theorem Took.handles (took : t.Took shards a t') (standing : ∀ stage, t.topology ≠ .deleting r stage)
    (handles : ∀ i, ∀ h ∈ (t.tasks i).handles, h.1 = r → h = t.memory.current r) (j : TaskId) :
    ∀ h ∈ (t'.tasks j).handles, h.1 = r → h = t'.memory.current r := by
  rw [took.current standing]
  intro h inside here
  rcases took.looked inside with before | found
  · exact handles j h before here
  · subst here
    exact Prod.ext rfl (lookUp_eq.mp found).1

theorem locked_of_held (locks : t.Locks) {i : TaskId} (held : t.memory.current r ∈ (t.tasks i).held) :
    t.locked r = changesFor (t.tasks i) (t.memory.current r) ∧ t.waitsOn r = t.blocked i := by
  simp only [locked, waitsOn, locks.owned i _ held, Option.elim_some, Option.any_some, and_self]

/-- A step of nobody's request leaves the queued changes of a resource alone. -/
theorem locked_same (current : t'.memory.current r = t.memory.current r) (tasks : t'.tasks = t.tasks)
    (lockedBy : t'.lockedBy = t.lockedBy)
    (outcomes : ∀ j, t'.writer.outcomes (.request j) = t.writer.outcomes (.request j)) :
    t'.locked r = t.locked r ∧ t'.waitsOn r = t.waitsOn r := by
  have blocked : t'.blocked = t.blocked := by
    funext j
    simp only [blocked, mayApply, tasks, outcomes]
  simp only [locked, waitsOn, current, tasks, lockedBy, blocked, and_self]

/-- A step of a request that has nothing queued leaves the queued changes of a resource alone,
    whatever it locks. -/
theorem locked_congr {i : TaskId} (current : t'.memory.current r = t.memory.current r)
    (others : ∀ j, j ≠ i → t'.tasks j = t.tasks j)
    (outcomes : ∀ j, t'.writer.outcomes (.request j) = t.writer.outcomes (.request j))
    (before : changesFor (t.tasks i) (t.memory.current r) = [] ∧ t.blocked i = false)
    (after : changesFor (t'.tasks i) (t.memory.current r) = [] ∧ t'.blocked i = false)
    (lockedBy : t'.lockedBy (t.memory.current r) = t.lockedBy (t.memory.current r) ∨
      (t.lockedBy (t.memory.current r)).getD i = i ∧ (t'.lockedBy (t.memory.current r)).getD i = i) :
    t'.locked r = t.locked r ∧ t'.waitsOn r = t.waitsOn r := by
  simp only [locked, waitsOn, current]
  rcases lockedBy with same | ⟨was, is⟩
  · rw [same]
    cases t.lockedBy (t.memory.current r) with
    | none => exact ⟨rfl, rfl⟩
    | some j =>
        by_cases own : j = i
        · subst own
          simp only [Option.elim_some, Option.any_some, before, after, and_self]
        · simp only [Option.elim_some, Option.any_some, others j own, blocked, mayApply, outcomes, and_self]
  · have plain : ∀ holder : Option TaskId, holder.getD i = i → holder = none ∨ holder = some i := by
      intro holder same
      cases holder with
      | none => exact .inl rfl
      | some j => exact .inr (congrArg some same)
    rcases plain _ was with was | was <;> rcases plain _ is with is | is <;>
      simp only [was, is, Option.elim_none, Option.elim_some, Option.any_none, Option.any_some, before, after,
        and_self]

/-- An action that neither queues a record of a request nor flushes, applies or gives up one. -/
def Action.quiet : Action → Bool
  | .send _ | .apply _ | .fail _ | .flush .. | .handle _ => false
  | _ => true

theorem plain_of_unsent {i : TaskId} (unsent : ∀ request held pending, t.tasks i ≠ .sent request held pending)
    (h : Handle) : changesFor (t.tasks i) h = [] ∧ t.blocked i = false := by
  unfold changesFor blocked
  cases phase : t.tasks i <;> first | exact ⟨rfl, rfl⟩ | exact absurd phase (unsent _ _ _)

/-- What is queued and not applied is as it was after a step that has nothing to do with it. -/
theorem Took.locked (took : t.Took shards a t') (locks : t.Locks)
    (standing : ∀ stage, t.topology ≠ .deleting r stage) (quiet : a.quiet) :
    t'.locked r = t.locked r ∧ t'.waitsOn r = t.waitsOn r := by
  have current := took.current standing
  have others : ∀ {i}, a.task = some i → ∀ j, j ≠ i → t'.tasks j = t.tasks j :=
    fun own j other => took.tasks_other (by rw [own]; exact fun same => other (Option.some.inj same).symm)
  -- Who gives his locks back held none or is the one who had locked the resource.
  have given : ∀ {i : TaskId} {held : List Handle}, (∀ h ∈ held, t.lockedBy h = some i) →
      (if t.memory.current r ∈ held then none else t.lockedBy (t.memory.current r)) =
          t.lockedBy (t.memory.current r) ∨
        (t.lockedBy (t.memory.current r)).getD i = i ∧
          (if t.memory.current r ∈ held then none else t.lockedBy (t.memory.current r)).getD i = i := by
    intro i held owned
    split
    · next mine => exact .inr ⟨by rw [owned _ mine]; rfl, rfl⟩
    · exact .inl rfl
  cases took with
  | start phase | lookUp phase | allLocked phase | claim phase | check phase | answer phase =>
      apply locked_congr current (others rfl) (fun _ => rfl) _ _ (.inl rfl)
      · exact plain_of_unsent (by simp [phase]) _
      · exact plain_of_unsent (by simp) _
  | @lock i _ _ held h _ phase free =>
      apply locked_congr current (others rfl) (fun _ => rfl)
      · exact plain_of_unsent (by simp [phase]) _
      · exact plain_of_unsent (by simp) _
      · simp only [Function.update_apply]
        split
        · next same => exact .inr ⟨by rw [same, free]; rfl, rfl⟩
        · exact .inl rfl
  | @release i request held phase may =>
      apply locked_congr current (others rfl) (fun _ => rfl)
      · simp [changesFor, blocked, phase, Task.pending, may]
      · exact plain_of_unsent (by simp) _
      · exact given fun h mine => locks.owned i h (by rw [phase]; exact mine)
  | @refuse i before =>
      apply locked_congr current (others rfl) (fun _ => rfl)
      · apply plain_of_unsent
        intro _ _ _ sent
        rcases before with ⟨_, _, _, _, phase⟩ | ⟨_, _, _, _, phase⟩ <;> cases phase.symm.trans sent
      · exact plain_of_unsent (by simp) _
      · exact given (locks.owned i)
  | send | apply | fail | flush | handle => cases quiet
  | finishDelete => exact locked_same current rfl rfl fun _ => rfl
  | sendCreate | sendDelete | beginCompaction | submit =>
      exact locked_same rfl rfl rfl fun _ => LogWriter.push_outcomes (fun same => by cases same)
  | _ => exact ⟨rfl, rfl⟩

/-! ### Queueing -/

/-- What a request is about to queue of a resource, once it is queued. -/
theorem changesFor_queued (inOrder : t.InOrder r) {i : TaskId} {request : Request.Prepared} {held : List Handle}
    {records : List Event} (phase : t.tasks i = .sending request held records) :
    changesFor (.sent request held (pendingOn held records)) (t.memory.current r) =
      records.flatMap (Event.changesOn r) ∧
      (records.flatMap (Event.changesOn r) ≠ [] → t.memory.current r ∈ held) := by
  obtain ⟨_, routed⟩ := (inOrder.bound i).decided _ _ _ phase
  have nodup := inOrder.locks.nodup i
  have looked := inOrder.handles i
  simp only [phase, Task.held, Task.handles] at nodup looked
  have own : records.flatMap (Event.changesOn r) =
      (records.flatMap Event.perResource).filter (·.resourceId? = some r) := List.filter_flatMap.symm
  have locked : records.flatMap (Event.changesOn r) ≠ [] → t.memory.current r ∈ held := by
    intro some
    rw [own] at some
    obtain ⟨change, inside⟩ := List.exists_mem_of_ne_nil _ some
    obtain ⟨written, onR⟩ := List.mem_filter.mp inside
    obtain ⟨h, isHeld, routed⟩ := routed change written
    have here : h.1 = r := by simpa [routed] using onR
    exact looked h isHeld here ▸ isHeld
  refine ⟨?_, locked⟩
  have part : ∀ rest : List Handle, rest.Nodup → (∀ h ∈ rest, h.1 = r → h = t.memory.current r) →
      changesFor (.sent request held (pendingOn rest records)) (t.memory.current r) =
        if t.memory.current r ∈ rest then records.flatMap (Event.changesOn r) else [] := by
    intro rest
    induction rest with
    | nil => exact fun _ _ => rfl
    | cons h rest ih =>
        intro apart named
        have ih := ih (List.nodup_cons.mp apart).2 fun h' inside => named h' (List.mem_cons_of_mem _ inside)
        simp only [changesFor, Task.pending, pendingOn, List.flatMap_cons, List.filter_append, List.map_append] at ih ⊢
        rw [ih]
        have first : (((((records.flatMap Event.perResource).filter (·.resourceId? = some h.1)).map (h, ·)).filter
            (·.1 = t.memory.current r)).map (·.2)) =
            if h = t.memory.current r then records.flatMap (Event.changesOn r) else [] := by
          by_cases same : h = t.memory.current r
          · simp [same, own, List.filter_map, Function.comp_def, Memory.current]
          · simp [same, List.filter_map, Function.comp_def]
        rw [first]
        by_cases same : h = t.memory.current r
        · have gone : t.memory.current r ∉ rest := same ▸ (List.nodup_cons.mp apart).1
          simp [same, gone]
        · simp [same, Ne.symm same]
  rw [part held nodup looked]
  split
  · rfl
  · next absent => exact (not_not.mp fun some => absent (locked some)).symm

/-- Queueing records of a resource that the request has locked, or none of that resource. -/
theorem InOrder.send (inOrder : t.InOrder r) {i : TaskId} {request : Request.Prepared} {held : List Handle}
    {records : List Event} (phase : t.tasks i = .sending request held records) (memory : t'.memory = t.memory)
    (lockedBy : t'.lockedBy = t.lockedBy)
    (tasks : t'.tasks = Function.update t.tasks i (.sent request held (pendingOn held records)))
    (writer : t'.writer = t.writer.push (.write (.request i) records)) :
    (t.memory.current r ∈ held ∧ t.heldBack r = [] ∧ t.owed r = [] ∧ t'.waitsOn r = !request.1.early ∧
      t'.locked r = records.flatMap (Event.changesOn r)) ∨
    t.memory.current r ∉ held ∧ records.flatMap (Event.changesOn r) = [] ∧ t'.heldBack r = t.heldBack r ∧
      t'.owed r = t.owed r := by
  obtain ⟨queued, locked⟩ := changesFor_queued inOrder phase
  have plain := plain_of_unsent (t := t) (i := i) (by simp [phase]) (t.memory.current r)
  have sent : t'.blocked i = !request.1.early := by
    simp [blocked, mayApply, tasks, writer, LogWriter.push]
  by_cases mine : t.memory.current r ∈ held
  · refine .inl ⟨mine, ?_⟩
    have owner := inOrder.locks.owned i _ (by rw [phase]; exact mine)
    have before := locked_of_held inOrder.locks (by rw [phase]; exact mine)
    refine ⟨?_, ?_, ?_, ?_⟩
    · simp only [heldBack, before.2, plain.2, Bool.false_eq_true, ↓reduceIte]
    · simp only [owed, before.1, before.2, plain.1, ite_self]
    · simp only [waitsOn, memory, lockedBy, owner, Option.any_some, sent]
    · simp only [Tenant.locked, memory, lockedBy, owner, tasks, Function.update_self, Option.elim_some, queued]
  · have nothing : records.flatMap (Event.changesOn r) = [] := not_not.mp fun some => mine (locked some)
    refine .inr ⟨mine, nothing, ?_⟩
    rw [nothing] at queued
    simp only [heldBack, owed, Tenant.locked, waitsOn, memory, lockedBy]
    rcases Option.eq_none_or_eq_some (t.lockedBy (t.memory.current r)) with owner | ⟨j, owner⟩
    · simp only [owner, Option.any_none, Option.elim_none, and_self]
    · simp only [owner, Option.any_some, Option.elim_some]
      by_cases own : j = i
      · subst own
        simp only [tasks, Function.update_self, queued, plain.1, ite_self, and_self]
      · have blocked : t'.blocked j = t.blocked j := by
          simp [blocked, mayApply, tasks, writer, LogWriter.push, own]
        simp only [tasks, Function.update_of_ne own, blocked, and_self]

/-! ### Flushing -/

/-- A request waits for its flush until its command is answered. -/
theorem Queued.blocked_answered (queued : t.Queued) {n : Nat} {ok : Bool} (tasks : t'.tasks = t.tasks)
    (outcomes : t'.writer.outcomes = (t.writer.answer n ok).outcomes) (i : TaskId) : t'.blocked i =
      (t.blocked i && !(ok && decide (.request i ∈ (t.writer.queue.take n).map WalCommand.sender))) := by
  have before : .request i ∈ (t.writer.queue.take n).map WalCommand.sender →
      t.writer.outcomes (.request i) = none := by
    intro first
    obtain ⟨c, inside, same⟩ := List.mem_map.mp first
    rw [← same]
    exact (queued.waiting c (List.mem_of_mem_take inside)).2
  unfold blocked
  rw [tasks]
  split
  · simp only [mayApply, outcomes, LogWriter.answer_outcomes]
    by_cases first : .request i ∈ (t.writer.queue.take n).map WalCommand.sender
    · simp only [first, before first, ↓reduceIte]
      cases ok <;> simp
    · simp only [first, ↓reduceIte]
      simp
  · rfl

/-- What is locked waits for the flush of its records until it is behind it. -/
theorem Queued.locked_answered (queued : t.Queued) {n : Nat} {ok : Bool}
    (current : t'.memory.current r = t.memory.current r) (tasks : t'.tasks = t.tasks)
    (lockedBy : t'.lockedBy = t.lockedBy) (outcomes : t'.writer.outcomes = (t.writer.answer n ok).outcomes) :
    t'.locked r = t.locked r ∧ t'.waitsOn r = (t.waitsOn r && !(ok && (t.lockedBy (t.memory.current r)).any fun i =>
      decide (.request i ∈ (t.writer.queue.take n).map WalCommand.sender))) := by
  simp only [locked, waitsOn, current, tasks, lockedBy, true_and]
  rcases Option.eq_none_or_eq_some (t.lockedBy (t.memory.current r)) with owner | ⟨j, owner⟩
  · simp only [owner, Option.any_none, Bool.false_and]
  · simp only [owner, Option.any_some]
    exact queued.blocked_answered tasks outcomes j

/-- Records of a resource none of which is held back are those of its holds, bookings and commits. -/
theorem changesOn_early {records : List Event}
    (early : ∀ ev ∈ records, ev.early = false → ev.changesOn r = []) :
    records.flatMap (Event.changesOn r) = (records.filter Event.early).flatMap (Event.changesOn r) := by
  induction records with
  | nil => rfl
  | cons ev rest ih =>
      have ih := ih fun later inside => early later (List.mem_cons_of_mem _ inside)
      cases kind : ev.early with
      | true => simp [kind, ih]
      | false => simp [kind, ih, early ev List.mem_cons_self kind]

theorem LateHeld.early (late : t.LateHeld r) (free : t.waitsOn r = false) :
    ∀ ev ∈ t.writer.queue.flatMap WalCommand.records, ev.early = false → ev.changesOn r = [] := by
  intro ev inside kind
  by_contra some
  obtain ⟨c, queued, recorded⟩ := List.mem_flatMap.mp inside
  obtain ⟨i, _, owner, blocked⟩ := late c queued ev recorded kind some
  simp only [waitsOn, owner, Option.any_some, blocked] at free
  cases free

/-- What a step of the writer makes durable of a resource comes from the front of what was
    queued, and frees the change that was held back when it is among it. -/
structure Flushes (t t' : Tenant) (r : Ulid) (batch freed : List Event) : Prop where
  flushed : t'.writer.flushed = t.writer.flushed ++ batch
  unflushed : t.writer.unflushed = batch ++ t'.writer.unflushed
  running : batch ≠ [] → t.writer.failed = false
  heldBack : t.heldBack r = freed ++ t'.heldBack r
  owed : t'.owed r = t.owed r ++ freed
  early : batch.flatMap (Event.changesOn r) ++ t'.earlyOn r = t.earlyOn r ++ freed
  ends : freed ≠ [] → t'.earlyOn r = []
  rest : t'.writer.failed = false → t'.Split r ∧ t'.LateHeld r

/-- A step of the writer that flushes nothing and answers no write. -/
theorem flushes_nothing (queued : t.Queued) {n : Nat} {ok : Bool} (split : t.writer.failed = false → t.Split r ∧ t.LateHeld r)
    (memory : t'.memory = t.memory) (tasks : t'.tasks = t.tasks) (lockedBy : t'.lockedBy = t.lockedBy)
    (flushed : t'.writer.flushed = t.writer.flushed) (unflushed : t'.writer.unflushed = t.writer.unflushed)
    (queue : t'.writer.queue = t.writer.queue.drop n) (outcomes : t'.writer.outcomes = (t.writer.answer n ok).outcomes)
    (running : t'.writer.failed = false → t.writer.failed = false)
    (others : ok = true → ∀ s ∈ (t.writer.queue.take n).map WalCommand.sender, s = .compaction) :
    t.Flushes t' r [] [] := by
  have current : t'.memory.current r = t.memory.current r := by rw [memory]
  have blocked : ∀ i, t'.blocked i = t.blocked i := by
    intro i
    rw [queued.blocked_answered tasks outcomes i]
    cases ok with
    | false => simp
    | true =>
        have apart : .request i ∉ (t.writer.queue.take n).map WalCommand.sender := fun inside => by cases others rfl _ inside
        simp only [apart, decide_false, Bool.and_false, Bool.not_false, Bool.and_true]
  have same : t'.locked r = t.locked r ∧ t'.waitsOn r = t.waitsOn r := by
    have blocks : t'.blocked = t.blocked := funext blocked
    simp only [locked, waitsOn, current, tasks, lockedBy, blocks, and_self]
  have held : t'.heldBack r = t.heldBack r := by simp only [heldBack, same]
  have early : t'.earlyOn r = t.earlyOn r := by simp only [earlyOn, unflushed]
  refine ⟨by rw [flushed, List.append_nil], by rw [unflushed, List.nil_append], fun some => absurd rfl some,
    by rw [held, List.nil_append], ?_, ?_, fun some => absurd rfl some, fun still => ⟨?_, ?_⟩⟩
  · simp only [owed, same, List.append_nil]
  · simp only [early, List.flatMap_nil, List.nil_append, List.append_nil]
  · unfold Split
    rw [unflushed, early, held]
    exact (split (running still)).1
  · intro c inside ev recorded kind some
    rw [queue] at inside
    obtain ⟨i, sender, owner, waits⟩ := (split (running still)).2 c (List.mem_of_mem_drop inside) ev recorded kind some
    exact ⟨i, sender, by rw [current, lockedBy]; exact owner, (blocked i).trans waits⟩

/-- A flush of the front of the queue. -/
theorem flushes_batch (queued : t.Queued) {n : Nat} (split : t.Split r) (late : t.LateHeld r)
    (last : LateLast r t.writer.queue) (running : t.writer.failed = false) (memory : t'.memory = t.memory) (tasks : t'.tasks = t.tasks)
    (lockedBy : t'.lockedBy = t.lockedBy)
    (flushed : t'.writer.flushed = t.writer.flushed ++ (t.writer.queue.take n).flatMap WalCommand.records)
    (unflushed : t.writer.unflushed = (t.writer.queue.take n).flatMap WalCommand.records ++ t'.writer.unflushed)
    (queue : t'.writer.queue = t.writer.queue.drop n) (behind : t'.writer.unflushed = t'.writer.queue.flatMap WalCommand.records)
    (outcomes : t'.writer.outcomes = (t.writer.answer n true).outcomes) :
    ∃ freed, t.Flushes t' r ((t.writer.queue.take n).flatMap WalCommand.records) freed := by
  have current : t'.memory.current r = t.memory.current r := by rw [memory]
  obtain ⟨locked, waits⟩ := queued.locked_answered current tasks lockedBy outcomes (r := r)
  have early : t.earlyOn r = (((t.writer.queue.take n).flatMap WalCommand.records).filter Event.early).flatMap
      (Event.changesOn r) ++ t'.earlyOn r := by
    simp only [earlyOn, unflushed, List.filter_append, List.flatMap_append]
  have whole : ((t.writer.queue.take n).flatMap WalCommand.records).flatMap (Event.changesOn r) ++
      t'.writer.unflushed.flatMap (Event.changesOn r) = t.earlyOn r ++ t.heldBack r := by
    rw [← List.flatMap_append, ← unflushed]
    exact split
  -- With no record held back behind the batch, the rest is holds, bookings and commits.
  have calm : (∀ c ∈ t.writer.queue.drop n, ∀ ev ∈ c.records, ev.early = false → ev.changesOn r = []) →
      t'.writer.unflushed.flatMap (Event.changesOn r) = t'.earlyOn r ∧ t'.LateHeld r := by
    intro none
    constructor
    · apply changesOn_early
      rw [behind, queue]
      intro ev inside kind
      obtain ⟨c, queued, recorded⟩ := List.mem_flatMap.mp inside
      exact none c queued ev recorded kind
    · intro c inside ev recorded kind some
      rw [queue] at inside
      exact absurd (none c inside ev recorded kind) some
  cases free : t.waitsOn r with
  | false =>
      have free' : t'.waitsOn r = false := by rw [waits, free, Bool.false_and]
      obtain ⟨rest, late'⟩ := calm fun c inside ev recorded kind =>
        late.early free ev (List.mem_flatMap.mpr ⟨c, List.mem_of_mem_drop inside, recorded⟩) kind
      simp only [heldBack, free, Bool.false_eq_true, ↓reduceIte, List.append_nil] at whole
      refine ⟨[], flushed, unflushed, fun _ => running, ?_, ?_, ?_, fun some => absurd rfl some, fun _ => ⟨?_, late'⟩⟩
      · simp only [heldBack, free, free', Bool.false_eq_true, ↓reduceIte, List.append_nil]
      · simp only [owed, free, free', locked, Bool.false_eq_true, ↓reduceIte, List.append_nil]
      · rw [← rest, whole, List.append_nil]
      · simp only [Split, rest, heldBack, free', Bool.false_eq_true, ↓reduceIte, List.append_nil]
  | true =>
      obtain ⟨i, owner, blocked⟩ := waitsOn_iff.mp free
      have sender : ∀ c ∈ t.writer.queue, ∀ ev ∈ c.records, ev.early = false → ev.changesOn r ≠ [] →
          c.sender = .request i := by
        intro c inside ev recorded kind some
        obtain ⟨j, own, owner', _⟩ := late c inside ev recorded kind some
        rw [own, Option.some.inj (owner'.symm.trans owner)]
      by_cases first : .request i ∈ (t.writer.queue.take n).map WalCommand.sender
      · have free' : t'.waitsOn r = false := by simp only [waits, owner, Option.any_some, first]; simp
        obtain ⟨rest, late'⟩ := calm fun c inside ev recorded kind => by
          by_contra some
          apply queued.behind inside
          rw [sender c (List.mem_of_mem_drop inside) ev recorded kind some]
          exact first
        refine ⟨t.locked r, flushed, unflushed, fun _ => running, ?_, ?_, ?_, fun some => ?_, fun _ => ⟨?_, late'⟩⟩
        · simp only [heldBack, free, free', Bool.false_eq_true, ↓reduceIte, List.append_nil]
        · simp only [owed, free, free', locked, Bool.false_eq_true, ↓reduceIte, List.nil_append]
        · simp only [heldBack, free, ↓reduceIte] at whole
          rw [← rest, whole]
        · -- The record of what is freed is in the batch, and nothing of the resource behind it.
          obtain ⟨ev, inBatch, kind, touched⟩ : ∃ ev ∈ (t.writer.queue.take n).flatMap WalCommand.records,
              ev.early = false ∧ ev.changesOn r ≠ [] := by
            by_contra absent
            have none : ∀ ev ∈ (t.writer.queue.take n).flatMap WalCommand.records, ev.early = false →
                ev.changesOn r = [] := fun ev inside kind => by_contra fun touched => absent ⟨ev, inside, kind, touched⟩
            simp only [heldBack, free, ↓reduceIte] at whole
            rw [changesOn_early none, rest, early, List.append_assoc] at whole
            have gone := List.append_cancel_left whole
            exact some (List.append_cancel_left ((List.append_nil _).trans gone)).symm
          obtain ⟨c, queued, recorded⟩ := List.mem_flatMap.mp inBatch
          obtain ⟨ahead, between, front⟩ := List.append_of_mem queued
          have whole : t.writer.queue = ahead ++ c :: (between ++ t.writer.queue.drop n) := by
            rw [← List.cons_append, ← List.append_assoc, ← front, List.take_append_drop]
          have untouched := last ahead c _ whole ev recorded kind touched
          refine List.flatMap_eq_nil_iff.mpr fun later inside => untouched later ?_
          rw [List.flatMap_append, ← queue, ← behind]
          exact List.mem_append_right _ (List.mem_filter.mp inside).1
        · simp only [Split, rest, heldBack, free', Bool.false_eq_true, ↓reduceIte, List.append_nil]
      · have free' : t'.waitsOn r = true := by simp only [waits, free, owner, Option.any_some, first]; simp
        have batch : ((t.writer.queue.take n).flatMap WalCommand.records).flatMap (Event.changesOn r) =
            (((t.writer.queue.take n).flatMap WalCommand.records).filter Event.early).flatMap (Event.changesOn r) := by
          apply changesOn_early
          intro ev inside kind
          by_contra some
          obtain ⟨c, queued, recorded⟩ := List.mem_flatMap.mp inside
          apply first
          rw [← sender c (List.mem_of_mem_take queued) ev recorded kind some]
          exact List.mem_map_of_mem queued
        have held : t'.heldBack r = t.heldBack r := by simp only [heldBack, free, free', locked]
        refine ⟨[], flushed, unflushed, fun _ => running, ?_, ?_, ?_, fun some => absurd rfl some, fun _ => ⟨?_, ?_⟩⟩
        · rw [held, List.nil_append]
        · simp only [owed, free, free', ↓reduceIte, List.append_nil]
        · rw [batch, early, List.append_nil]
        · unfold Split
          rw [held]
          rw [early, ← batch, List.append_assoc] at whole
          exact List.append_cancel_left whole
        · intro c inside ev recorded kind some
          rw [queue] at inside
          obtain ⟨j, own, owner', waits'⟩ := late c (List.mem_of_mem_drop inside) ev recorded kind some
          refine ⟨j, own, by rw [current, lockedBy]; exact owner', ?_⟩
          cases Option.some.inj (owner'.symm.trans owner)
          rw [queued.blocked_answered tasks outcomes, waits']
          simp only [first]
          simp

theorem InOrder.flush (inOrder : t.InOrder r) {writer : LogWriter} (took : t.writer.Took writer) :
    ∃ batch freed, t.Flushes { t with writer } r batch freed := by
  obtain ⟨front, worked⟩ := inOrder.queued.front.took took
  cases worked with
  | nothing n ok queue outcomes flushed unflushed running others =>
      exact ⟨[], [], flushes_nothing inOrder.queued inOrder.split rfl rfl rfl flushed unflushed queue outcomes
        running others⟩
  | batch n running still queue outcomes flushed unflushed =>
      obtain ⟨split, late⟩ := inOrder.split running
      have whole : ∃ freed, t.Flushes { t with writer } r ((t.writer.queue.take n).flatMap WalCommand.records) freed :=
        flushes_batch inOrder.queued split late (inOrder.last running) running rfl rfl rfl flushed unflushed queue
          (front.queued still) outcomes
      exact ⟨_, whole⟩

/-! ### Every step -/

/-- Whoever has queued his records moves on only to apply them, to give them up or to give his
    locks back. -/
theorem Took.sender_other (took : t.Took shards a t') (quiet : a.quiet) {i : TaskId} {request : Request.Prepared}
    {held : List Handle} {pending : List (Handle × Event)} (phase : t.tasks i = .sent request held pending)
    (keeps : a ≠ .release i) : a.task ≠ some i := by
  intro own
  cases took with
  | start was | lookUp was | lock was | allLocked was | claim was | check was | answer was =>
      cases own
      cases phase.symm.trans was
  | release =>
      cases own
      exact keeps rfl
  | refuse before =>
      cases own
      rcases before with ⟨_, _, _, _, was⟩ | ⟨_, _, _, _, was⟩ <;> cases phase.symm.trans was
  | send | apply | fail => cases quiet
  | _ => cases own

theorem Took.outcome_stays (took : t.Took shards a t') (quiet : a.quiet) (i : TaskId) :
    t'.writer.outcomes (.request i) = t.writer.outcomes (.request i) := by
  cases took with
  | send | apply | fail | flush | handle => cases quiet
  | sendCreate | sendDelete | beginCompaction | submit =>
      exact LogWriter.push_outcomes (fun same => by cases same)
  | _ => rfl

/-- Whoever has a lock keeps it while others move. -/
theorem Took.owner_stays (took : t.Took shards a t') (locks : t.Locks) (quiet : a.quiet) {i : TaskId} {h : Handle}
    (owner : t.lockedBy h = some i) (other : a.task ≠ some i) : t'.lockedBy h = some i := by
  -- Who gives this lock back would be the one who holds it.
  have kept : ∀ {j : TaskId} {held : List Handle}, j ≠ i → (∀ h ∈ held, t.lockedBy h = some j) →
      (if h ∈ held then none else t.lockedBy h) = some i := by
    intro j held apart owned
    split
    · next mine => exact absurd (Option.some.inj ((owned h mine).symm.trans owner)) apart
    · exact owner
  cases took with
  | lock _ free =>
      simp only [Function.update_apply]
      split
      · next same => cases (same ▸ owner).symm.trans free
      · exact owner
  | @release j _ held was =>
      exact kept (fun same => other (congrArg some same)) fun h mine => locks.owned j h (by rw [was]; exact mine)
  | @refuse j => exact kept (fun same => other (congrArg some same)) (locks.owned j)
  | fail => cases quiet
  | _ => exact owner

/-- A lock passes from one to another by way of nobody. -/
theorem Took.owner_was (took : t.Took shards a t') {h : Handle} {i : TaskId} (owner : t'.lockedBy h = some i) :
    t.lockedBy h = some i ∨ t.lockedBy h = none := by
  have given : ∀ {held : List Handle}, (if h ∈ held then none else t.lockedBy h) = some i → t.lockedBy h = some i := by
    intro held kept
    split at kept
    · cases kept
    · exact kept
  cases took with
  | lock _ free =>
      simp only [Function.update_apply] at owner
      split at owner
      · next same => exact .inr (same ▸ free)
      · exact .inl owner
  | release | refuse | fail => exact .inl (given owner)
  | _ => exact .inl owner

/-- Whoever waits for a flush under a lock keeps it while others move. -/
theorem Took.blocked_stays (took : t.Took shards a t') (locks : t.Locks) (quiet : a.quiet) {i : TaskId} {h : Handle}
    (owner : t.lockedBy h = some i) (blocked : t.blocked i) : t'.lockedBy h = some i ∧ t'.blocked i := by
  obtain ⟨request, held, pending, phase, mayNot⟩ := sent_of_blocked blocked
  have other : a.task ≠ some i := by
    apply took.sender_other quiet phase
    rintro rfl
    cases took with
    | release was may =>
        cases phase.symm.trans was
        rw [mayNot] at may
        cases may
  refine ⟨took.owner_stays locks quiet owner other, ?_⟩
  simp only [Tenant.blocked, took.tasks_other other, phase, mayApply, took.outcome_stays quiet] at blocked ⊢
  exact blocked

/-- Applying a change takes it off what may be applied. -/
theorem InOrder.apply (inOrder : t.InOrder r) {i : TaskId} {request : Request.Prepared} {held : List Handle} {h : Handle}
    {change : Event} {rest : List (Handle × Event)} (phase : t.tasks i = .sent request held ((h, change) :: rest))
    (may : t.mayApply i request) (current : t'.memory.current r = t.memory.current r)
    (lockedBy : t'.lockedBy = t.lockedBy) (tasks : t'.tasks = Function.update t.tasks i (.sent request held rest))
    (writer : t'.writer = t.writer) : t'.heldBack r = t.heldBack r ∧ t'.blocked = t.blocked ∧
      t.owed r = (if h = t.memory.current r then [change] else []) ++ t'.owed r := by
  have free : t.blocked i = false := by simp only [blocked, phase, may, Bool.not_true]
  have blocks : t'.blocked = t.blocked := by
    funext j
    by_cases own : j = i
    · subst own
      simp only [blocked, tasks, Function.update_self, mayApply, writer, phase]
    · simp only [blocked, tasks, Function.update_of_ne own, mayApply, writer]
  have inHeld : h ∈ (t.tasks i).held := by
    have bound := inOrder.bound i
    rw [phase] at bound ⊢
    exact (bound.pending _ List.mem_cons_self).2.1
  have owner := inOrder.locks.owned i h inHeld
  have waits : t'.waitsOn r = t.waitsOn r := by simp only [waitsOn, current, lockedBy, blocks]
  refine ⟨?_, blocks, ?_⟩
  · simp only [heldBack, waits]
    split
    · next waiting =>
        obtain ⟨j, owner', blocked⟩ := waitsOn_iff.mp waiting
        have other : j ≠ i := by
          rintro rfl
          rw [free] at blocked
          cases blocked
        simp only [Tenant.locked, current, lockedBy, owner', Option.elim_some, tasks, Function.update_of_ne other]
    · rfl
  · by_cases here : h = t.memory.current r
    · rw [here] at owner
      have running : t.waitsOn r = false := by simp only [waitsOn, owner, Option.any_some, free]
      simp only [owed, waits, running, Tenant.locked, current, lockedBy, owner, Option.elim_some, phase, tasks,
        Function.update_self]
      simp [changesFor, Task.pending, here]
    · simp only [owed, waits, here, ↓reduceIte, List.nil_append]
      split
      · rfl
      · simp only [Tenant.locked, current, lockedBy]
        rcases Option.eq_none_or_eq_some (t.lockedBy (t.memory.current r)) with none | ⟨j, owner'⟩
        · simp only [none, Option.elim_none]
        · by_cases own : j = i
          · subst own
            simp only [owner', Option.elim_some, phase, tasks, Function.update_self]
            simp [changesFor, Task.pending, here]
          · simp only [owner', Option.elim_some, tasks, Function.update_of_ne own]

/-- A request that gives up was waiting for its flush. -/
theorem Locks.fail (locks : t.Locks) {i : TaskId} {request : Request.Prepared} {held : List Handle}
    {pending : List (Handle × Event)} (phase : t.tasks i = .sent request held pending) (late : request.1.early = false)
    (failed : t.writer.outcomes (.request i) = some false) :
    ((t.setTask i (.answered false)).unlock held).owed r = t.owed r := by
  have waits : t.blocked i = true := by simp [blocked, phase, mayApply, late, failed]
  have plain := plain_of_unsent (t := (t.setTask i (.answered false)).unlock held) (i := i) (by simp) (t.memory.current r)
  rcases Option.eq_none_or_eq_some (t.lockedBy (t.memory.current r)) with free | ⟨j, owner⟩
  · have free' : ((t.setTask i (.answered false)).unlock held).lockedBy (t.memory.current r) = none := by
      simp [unlock, setTask, free]
    have none : ∀ {t : Tenant}, t.lockedBy (t.memory.current r) = none → t.owed r = [] := by
      intro t free
      simp only [owed, Tenant.locked, free, Option.elim_none, ite_self]
    rw [none free, none free']
  · have after : ((t.setTask i (.answered false)).unlock held).lockedBy (t.memory.current r) =
        if t.memory.current r ∈ held then none else some j := by
      simp only [unlock, setTask, owner]
    have current : ((t.setTask i (.answered false)).unlock held).memory.current r = t.memory.current r := rfl
    by_cases own : j = i
    · subst own
      have before : t.owed r = [] := by simp only [owed, waitsOn, owner, Option.any_some, waits, ↓reduceIte]
      rw [before]
      simp only [owed, Tenant.locked, current, after]
      by_cases mine : t.memory.current r ∈ held <;>
        simp only [mine, ↓reduceIte, Option.elim_none, Option.elim_some, plain.1, ite_self]
    · have kept : t.memory.current r ∉ held := fun mine =>
        own (Option.some.inj (owner.symm.trans (locks.owned i _ (by rw [phase]; exact mine))))
      have tasks : ((t.setTask i (.answered false)).unlock held).tasks j = t.tasks j := by
        rw [unlock_tasks, setTask_tasks, if_neg own]
      have blocked : ((t.setTask i (.answered false)).unlock held).blocked j = t.blocked j := by
        simp only [blocked, tasks]
        rfl
      simp only [owed, Tenant.locked, waitsOn, current, after, kept, ↓reduceIte, owner, Option.any_some,
        Option.elim_some, blocked, tasks]

/-- A step that leaves the records of a resource alone. -/
theorem InOrder.split_quiet (inOrder : t.InOrder r) (took : t.Took shards a t') (quiet : a.quiet)
    (writer : t'.writer = t.writer ∨ ∃ command, t'.writer = t.writer.push command ∧
      command.records.flatMap (Event.changesOn r) = [])
    (running : t'.writer.failed = false) : t'.Split r ∧ t'.LateHeld r := by
  obtain ⟨locked, waits⟩ := took.locked inOrder.locks inOrder.standing quiet
  have current := took.current inOrder.standing
  have held : t'.heldBack r = t.heldBack r := by simp only [heldBack, locked, waits]
  obtain ⟨new, unflushed, queue, untouched, failed⟩ : ∃ new : List Event,
      t'.writer.unflushed = t.writer.unflushed ++ new ∧
      (∀ c ∈ t'.writer.queue, c ∈ t.writer.queue ∨ c.records = new) ∧
      (∀ ev ∈ new, ev.changesOn r = []) ∧ t'.writer.failed = t.writer.failed := by
    rcases writer with same | ⟨command, pushed, none⟩
    · rw [same]
      exact ⟨[], (List.append_nil _).symm, fun c inside => .inl inside, List.forall_mem_nil _, rfl⟩
    · rw [pushed]
      refine ⟨command.records, inOrder.queued.front.push_unflushed command, fun c inside => ?_,
        List.flatMap_eq_nil_iff.mp none, rfl⟩
      rcases List.mem_append.mp inside with there | now
      · exact .inl there
      · exact .inr (by rw [List.mem_singleton.mp now])
  have early : t'.earlyOn r = t.earlyOn r := by
    rw [earlyOn_append unflushed, filter_untouched (List.flatMap_eq_nil_iff.mpr untouched), List.append_nil]
  obtain ⟨split, late⟩ := inOrder.split (failed ▸ running)
  refine ⟨?_, fun c inside ev recorded kind some => ?_⟩
  · unfold Split at split ⊢
    rw [unflushed, List.flatMap_append, List.flatMap_eq_nil_iff.mpr untouched, List.append_nil, early, held, split]
  · rcases queue c inside with there | now
    · obtain ⟨i, sender, owner, blocked⟩ := late c there ev recorded kind some
      obtain ⟨owner', blocked'⟩ := took.blocked_stays inOrder.locks quiet owner blocked
      exact ⟨i, sender, by rw [current]; exact owner', blocked'⟩
    · exact absurd (untouched ev (now ▸ recorded)) some

/-- Queueing the records of a request keeps them in order. -/
theorem InOrder.split_send (inOrder : t.InOrder r) {i : TaskId} {request : Request.Prepared} {held : List Handle}
    {records : List Event} (phase : t.tasks i = .sending request held records) (memory : t'.memory = t.memory)
    (lockedBy : t'.lockedBy = t.lockedBy)
    (tasks : t'.tasks = Function.update t.tasks i (.sent request held (pendingOn held records)))
    (writer : t'.writer = t.writer.push (.write (.request i) records)) (running : t'.writer.failed = false) :
    t'.Split r ∧ t'.LateHeld r := by
  have kinds := inOrder.kinds i _ _ _ phase
  have unflushed : t'.writer.unflushed = t.writer.unflushed ++ records := by
    rw [writer, inOrder.queued.front.push_unflushed, WalCommand.write_records]
  have free : t.blocked i = false := (plain_of_unsent (by simp [phase]) (t.memory.current r)).2
  have sent : t'.blocked i = !request.1.early := by
    simp [blocked, mayApply, tasks, writer, LogWriter.push]
  obtain ⟨split, late⟩ := inOrder.split (by rw [writer] at running; exact running)
  have early : t'.earlyOn r = t.earlyOn r ++ (records.filter Event.early).flatMap (Event.changesOn r) :=
    earlyOn_append unflushed
  have older : ∀ c ∈ t.writer.queue, ∀ ev ∈ c.records, ev.early = false → ev.changesOn r ≠ [] →
      ∃ j, c.sender = .request j ∧ t'.lockedBy (t'.memory.current r) = some j ∧ t'.blocked j := by
    intro c inside ev recorded kind some
    obtain ⟨j, sender, owner, blocked⟩ := late c inside ev recorded kind some
    have other : j ≠ i := by
      rintro rfl
      rw [free] at blocked
      cases blocked
    refine ⟨j, sender, by rw [memory, lockedBy]; exact owner, ?_⟩
    simpa [Tenant.blocked, mayApply, tasks, writer, LogWriter.push, other] using blocked
  rcases inOrder.send phase memory lockedBy tasks writer with
    ⟨mine, heldBack, _, waits, locked⟩ | ⟨_, nothing, held, _⟩
  · refine ⟨?_, fun c inside ev recorded kind some => ?_⟩
    · unfold Split at split ⊢
      rw [unflushed, List.flatMap_append, split, heldBack, early, List.append_nil]
      cases ahead : request.1.early with
      | true =>
          have all : records.filter Event.early = records :=
            List.filter_eq_self.mpr fun ev inside => (kinds ev inside).trans ahead
          simp only [all, Tenant.heldBack, waits, ahead, Bool.not_true, Bool.false_eq_true, ↓reduceIte, List.append_nil]
      | false =>
          have none : records.filter Event.early = [] :=
            List.filter_eq_nil_iff.mpr fun ev inside => by rw [kinds ev inside, ahead]; exact Bool.false_ne_true
          simp only [none, Tenant.heldBack, waits, ahead, Bool.not_false, ↓reduceIte, locked, List.flatMap_nil,
            List.append_nil]
    · rw [writer] at inside
      rcases List.mem_append.mp inside with there | now
      · exact older c there ev recorded kind some
      · cases List.mem_singleton.mp now
        rw [WalCommand.write_records] at recorded
        refine ⟨i, WalCommand.write_sender .., ?_, ?_⟩
        · rw [memory, lockedBy]
          exact inOrder.locks.owned i _ (by rw [phase]; exact mine)
        · rw [sent, ← kinds ev recorded, kind]
          rfl
  · have untouched := List.flatMap_eq_nil_iff.mp nothing
    refine ⟨?_, fun c inside ev recorded kind some => ?_⟩
    · unfold Split at split ⊢
      rw [unflushed, List.flatMap_append, nothing, List.append_nil, early, filter_untouched nothing, List.append_nil,
        held, split]
    · rw [writer] at inside
      rcases List.mem_append.mp inside with there | now
      · exact older c there ev recorded kind some
      · cases List.mem_singleton.mp now
        rw [WalCommand.write_records] at recorded
        exact absurd (untouched ev recorded) some

theorem Took.quiet_writer (took : t.Took shards a t') (quiet : a.quiet) : t'.writer = t.writer ∨
    ∃ command, t'.writer = t.writer.push command ∧ command.records.flatMap (Event.changesOn r) = [] := by
  cases took with
  | sendCreate | sendDelete | beginCompaction | submit => exact .inr ⟨_, rfl, rfl⟩
  | send | apply | fail | flush | handle => cases quiet
  | _ => exact .inl rfl

theorem InOrder.took (inOrder : t.InOrder r) (took : t.Took shards a t') (spares : a ≠ .delete r) : t'.InOrder r := by
  have current := took.current inOrder.standing
  refine ⟨inOrder.queued.took took, inOrder.locks.took took, took.standing spares inOrder.standing,
    took.handles inOrder.standing inOrder.handles, took.bound inOrder.bound, ?_, ?_, ?_⟩
  · intro j request held records phase
    by_cases own : a.task = some j
    · cases took with
      | check _ _ admitted =>
          cases own
          rw [setTask_self] at phase
          cases phase
          exact admitted_early admitted
      | start | lookUp | lock | allLocked | claim | send | apply | release | fail | answer | refuse =>
          cases own
          simp at phase
      | _ => cases own
    · rw [took.tasks_other own] at phase
      exact inOrder.kinds j _ _ _ phase
  · intro running
    cases quiet : a.quiet with
    | true => exact inOrder.split_quiet took quiet (took.quiet_writer quiet) running
    | false =>
        cases took with
        | flush _ worked | handle _ worked =>
            obtain ⟨batch, freed, flushes⟩ := inOrder.flush worked
            exact flushes.rest running
        | send phase => exact inOrder.split_send phase rfl rfl rfl rfl running
        | apply phase may =>
            obtain ⟨held, blocks, _⟩ := inOrder.apply phase may current rfl rfl rfl
            obtain ⟨split, late⟩ := inOrder.split running
            refine ⟨?_, fun c inside ev recorded kind some => ?_⟩
            · unfold Split
              rw [held]
              exact split
            · obtain ⟨i, sender, owner, waits⟩ := late c inside ev recorded kind some
              exact ⟨i, sender, by rw [current]; exact owner, by rw [blocks]; exact waits⟩
        | fail _ _ failed =>
            have stopped := inOrder.queued.refused _ (fun same => by cases same) failed
            cases stopped.symm.trans running
        | _ => cases quiet
  · intro running
    have before : t.writer.failed = false → LateLast r t.writer.queue := inOrder.last
    cases took with
    | flush _ worked | handle _ worked =>
        obtain ⟨n, _, queue, _⟩ := worked.answers
        simp only [queue]
        apply (before ?_).drop
        by_contra failed
        cases (worked.failed (by simpa using failed)).symm.trans running
    | @send i request held records phase =>
        have last := before running
        apply last.push
        rw [WalCommand.write_records]
        by_cases mine : t.memory.current r ∈ held
        · right
          intro c inside ev recorded kind
          have free := (locked_of_held inOrder.locks (by rw [phase]; exact mine)).2.trans
            (plain_of_unsent (by simp [phase]) (t.memory.current r)).2
          exact (inOrder.split running).2.early free ev (List.mem_flatMap.mpr ⟨c, inside, recorded⟩) kind
        · left
          apply List.flatMap_eq_nil_iff.mp
          exact not_not.mp fun some => mine ((changesFor_queued inOrder phase).2 some)
    | sendCreate | sendDelete | beginCompaction | submit =>
        apply (before running).push
        left
        apply List.flatMap_eq_nil_iff.mp
        rfl
    | _ => exact before running

end Resource

end Tenant

end Deltat
