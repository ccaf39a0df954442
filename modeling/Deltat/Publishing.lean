import Deltat.Announcing
import Deltat.FlushOrder

/-! # What callers publish

A write that waits for its flush under its locks is applied and published by its caller. Until he
has published all of it he keeps the locks, and nothing else of his resource is queued.
-/

namespace Deltat

open Lib Machine

/-! ## What is to be published of a resource -/

namespace Tenant

variable {shards : Shards} {t t' : Tenant} {a : Action} {r : Ulid}

theorem noticeOf_event (h : Handle) (change : Event) (reason : HoldEnd) :
    (t.noticeOf h change reason).event = change.broadcastable := by
  unfold noticeOf
  cases (t.memory.read h).bind (·.ended reason change) <;> rfl

/-- Whether a request waits for its flush under its locks and publishes its change itself. -/
def late (t : Tenant) (i : TaskId) : Bool :=
  match t.tasks i with
  | .sent request _ _ => !request.1.early
  | _ => false

/-- The durable changes of a resource that whoever has locked it has still to apply and publish. -/
def unpublished (t : Tenant) (r : Ulid) : List Event :=
  if (t.lockedBy (t.memory.current r)).any t.late then t.owed r else []

/-- Changes that may be applied are those of a request that has locked the resource. -/
theorem owed_holder (owed : t.owed r ≠ []) : ∃ i request held pending, t.lockedBy (t.memory.current r) = some i ∧
    t.tasks i = .sent request held pending ∧ pending ≠ [] ∧ t.blocked i = false := by
  have running : t.waitsOn r = false := by
    by_contra waits
    simp only [Tenant.owed, Bool.not_eq_false] at waits owed
    rw [if_pos waits] at owed
    exact owed rfl
  rw [Tenant.owed, running, if_neg Bool.false_ne_true] at owed
  unfold waitsOn at running
  unfold locked at owed
  rcases Option.eq_none_or_eq_some (t.lockedBy (t.memory.current r)) with free | ⟨i, owner⟩
  · rw [free] at owed
    exact absurd rfl owed
  · rw [owner] at owed running
    have pending : (t.tasks i).pending ≠ [] := by
      intro none
      apply owed
      simp [changesFor, none]
    cases phase : t.tasks i with
    | sent request held pending' =>
        rw [phase] at pending
        exact ⟨i, request, held, pending', owner, phase, pending, running⟩
    | _ => simp [phase, Task.pending] at pending

theorem unpublished_congr (owed : t'.owed r = t.owed r)
    (stays : ∀ i request held pending, t.lockedBy (t.memory.current r) = some i → t.tasks i = .sent request held pending →
      pending ≠ [] → t.blocked i = false → t'.lockedBy (t'.memory.current r) = some i ∧ t'.tasks i = t.tasks i) :
    t'.unpublished r = t.unpublished r := by
  unfold unpublished
  rw [owed]
  by_cases nothing : t.owed r = []
  · simp only [nothing, ite_self]
  · obtain ⟨i, request, held, pending, owner, phase, some, running⟩ := owed_holder nothing
    obtain ⟨owner', tasks⟩ := stays i request held pending owner phase some running
    simp only [owner, owner', Option.any_some, late, tasks]

/-- A step that queues, flushes, applies and gives up nothing leaves what is to be published. -/
theorem Took.unpublished (took : t.Took shards a t') (inOrder : t.InOrder r) (quiet : a.quiet) :
    t'.unpublished r = t.unpublished r := by
  have current := took.current inOrder.standing
  obtain ⟨locked, waits⟩ := took.locked inOrder.locks inOrder.standing quiet
  apply unpublished_congr
  · simp only [owed, locked, waits]
  · intro i request held pending owner phase some _
    have other : a.task ≠ Option.some i := by
      apply took.sender_other quiet phase
      rintro rfl
      cases took with
      | release was =>
          cases phase.symm.trans was
          exact some rfl
    exact ⟨by rw [current]; exact took.owner_stays inOrder.locks quiet owner other, took.tasks_other other⟩

/-- Queueing leaves it, and queues of a resource only what has nothing before it to be published. -/
theorem InOrder.send_unpublished (inOrder : t.InOrder r) {i : TaskId} {request : Request.Prepared} {held : List Handle}
    {records : List Event} (phase : t.tasks i = .sending request held records) (memory : t'.memory = t.memory)
    (lockedBy : t'.lockedBy = t.lockedBy)
    (tasks : t'.tasks = Function.update t.tasks i (.sent request held (pendingOn held records)))
    (writer : t'.writer = t.writer.push (.write (.request i) records)) :
    t'.unpublished r = t.unpublished r ∧ (records.flatMap (Event.changesOn r) ≠ [] →
      t.unpublished r = [] ∧ t.lockedBy (t.memory.current r) = some i) := by
  have owner : t.memory.current r ∈ held → t.lockedBy (t.memory.current r) = some i :=
    fun mine => inOrder.locks.owned i _ (by rw [phase]; exact mine)
  rcases inOrder.send phase memory lockedBy tasks writer with ⟨mine, _, owed, waits, _⟩ | ⟨_, nothing, _, owed⟩
  · have before : t.unpublished r = [] := by simp only [unpublished, owed, ite_self]
    refine ⟨?_, fun _ => ⟨before, owner mine⟩⟩
    rw [before]
    unfold unpublished
    rw [memory, lockedBy, owner mine, Option.any_some, Tenant.owed, waits]
    cases ahead : request.1.early <;> simp [late, tasks, ahead]
  · refine ⟨unpublished_congr owed ?_, fun some => absurd nothing some⟩
    intro j _ _ _ owner' phase' _ _
    have other : j ≠ i := by
      rintro rfl
      cases phase.symm.trans phase'
    exact ⟨by rw [memory, lockedBy]; exact owner', by rw [tasks, Function.update_of_ne other]⟩

/-- Applying takes a change off, unless it is one that the log writer announces. -/
theorem InOrder.apply_unpublished (inOrder : t.InOrder r) {i : TaskId} {request : Request.Prepared} {held : List Handle}
    {h : Handle} {change : Event} {rest : List (Handle × Event)} (phase : t.tasks i = .sent request held ((h, change) :: rest))
    (may : t.mayApply i request) (current : t'.memory.current r = t.memory.current r)
    (lockedBy : t'.lockedBy = t.lockedBy) (tasks : t'.tasks = Function.update t.tasks i (.sent request held rest))
    (writer : t'.writer = t.writer) :
    t.unpublished r = (if h = t.memory.current r ∧ request.1.early = false then [change] else []) ++ t'.unpublished r ∧
      (h = t.memory.current r → t.lockedBy (t.memory.current r) = some i) := by
  obtain ⟨_, _, owed⟩ := inOrder.apply phase may current lockedBy tasks writer
  have flags : t'.late = t.late := by
    funext j
    by_cases own : j = i
    · subst own
      simp only [late, tasks, Function.update_self, phase]
    · simp only [late, tasks, Function.update_of_ne own]
  have inHeld : h ∈ (t.tasks i).held := by
    have bound := inOrder.bound i
    rw [phase] at bound ⊢
    exact (bound.pending _ List.mem_cons_self).2.1
  have owner := inOrder.locks.owned i h inHeld
  refine ⟨?_, fun here => here ▸ owner⟩
  unfold unpublished
  rw [flags, current, lockedBy, owed]
  by_cases here : h = t.memory.current r
  · rw [here] at owner
    cases ahead : request.1.early <;> simp [owner, late, phase, ahead, here]
  · simp [here]

/-- A request that gives up has nothing to publish. -/
theorem InOrder.fail_unpublished (inOrder : t.InOrder r) {i : TaskId} {request : Request.Prepared} {held : List Handle}
    {pending : List (Handle × Event)} (phase : t.tasks i = .sent request held pending) (late : request.1.early = false)
    (failed : t.writer.outcomes (.request i) = some false) :
    ((t.setTask i (.answered false)).unlock held).unpublished r = t.unpublished r := by
  apply unpublished_congr (inOrder.locks.fail phase late failed)
  intro j _ _ _ owner phase' _ running
  have other : j ≠ i := by
    rintro rfl
    simp [blocked, phase, mayApply, late, failed] at running
  have kept : t.memory.current r ∉ held := fun mine =>
    other (Option.some.inj (owner.symm.trans (inOrder.locks.owned i _ (by rw [phase]; exact mine))))
  refine ⟨?_, by rw [unlock_tasks, setTask_tasks, if_neg other]⟩
  change (if t.memory.current r ∈ held then none else t.lockedBy (t.memory.current r)) = some j
  rw [if_neg kept]
  exact owner

/-! ### Flushing -/

section Flush

variable {batch freed : List Event} {writer : LogWriter}

/-- What a flush makes durable of a resource: holds, bookings and commits, and behind them what
    was held back. -/
theorem Flushes.changes (flushes : t.Flushes t' r batch freed) :
    t.earlyOn r = (batch.filter Event.early).flatMap (Event.changesOn r) ++ t'.earlyOn r ∧
      batch.flatMap (Event.changesOn r) = (batch.filter Event.early).flatMap (Event.changesOn r) ++ freed := by
  have split : t.earlyOn r = (batch.filter Event.early).flatMap (Event.changesOn r) ++ t'.earlyOn r := by
    simp only [earlyOn, flushes.unflushed, List.filter_append, List.flatMap_append]
  refine ⟨split, ?_⟩
  have early := flushes.early
  rw [split, List.append_assoc] at early
  by_cases nothing : freed = []
  · rw [nothing, List.append_nil] at early ⊢
    exact List.append_cancel_right early
  · simpa [flushes.ends nothing] using early

theorem Flushes.nothing (flushes : t.Flushes t' r batch freed) (empty : batch = []) : freed = [] := by
  have changes := flushes.changes.2
  rw [empty] at changes
  exact (List.append_eq_nil_iff.mp changes.symm).2

theorem Flushes.holder (flushes : t.Flushes t' r batch freed) (some : freed ≠ []) : t.waitsOn r = true := by
  by_contra running
  have held := flushes.heldBack
  rw [Tenant.heldBack, if_neg running] at held
  exact some (List.append_eq_nil_iff.mp held.symm).1

theorem Flushes.unpublished (flushes : t.Flushes { t with writer } r batch freed) :
    ({ t with writer } : Tenant).unpublished r = t.unpublished r ++ freed := by
  have flags : ({ t with writer } : Tenant).late = t.late := rfl
  unfold Tenant.unpublished
  rw [flags, flushes.owed]
  split
  · rfl
  · next other =>
      by_contra some
      obtain ⟨i, owner, blocked⟩ := waitsOn_iff.mp (flushes.holder (Ne.symm some))
      apply other
      rw [show ({ t with writer } : Tenant).lockedBy = t.lockedBy from rfl, owner, Option.any_some]
      obtain ⟨request, held, pending, phase, mayNot⟩ := sent_of_blocked blocked
      simp only [mayApply, Bool.or_eq_false_iff] at mayNot
      simp only [late, phase, mayNot.1, Bool.not_false]

/-- Whoever holds back what a step of the writer frees is answered by it. -/
theorem Flushes.answered (flushes : t.Flushes { t with writer } r batch freed) (queued : t.Queued) {n : Nat} {ok : Bool}
    (outcomes : writer.outcomes = (t.writer.answer n ok).outcomes) (some : freed ≠ []) {i : TaskId}
    (owner : t.lockedBy (t.memory.current r) = Option.some i) :
    .request i ∈ (t.writer.queue.take n).map WalCommand.sender := by
  have before := flushes.holder some
  obtain ⟨locked, waits⟩ := @Queued.locked_answered t { t with writer } r queued n ok rfl rfl rfl outcomes
  have after : ({ t with writer } : Tenant).waitsOn r = false := by
    by_contra still
    have held := flushes.heldBack
    rw [Tenant.heldBack, Tenant.heldBack, if_pos before, if_pos (by simpa using still), locked] at held
    exact some (List.append_left_eq_self.mp held.symm)
  rw [after, before, owner, Option.any_some, Bool.true_and] at waits
  simp only [Bool.false_eq, Bool.not_eq_false', Bool.and_eq_true, decide_eq_true_eq] at waits
  exact waits.2

end Flush

end Tenant

/-! ## Who publishes -/

namespace Announcing

variable {shards : Shards} {s s' : Announcing} {a : Tenant.Action} {after : Tenant} {expired : Bool}

@[simp] theorem follow_tenant : (s.follow a expired after).tenant = after := by
  cases a with
  | check i =>
      simp only [follow]
      split <;> rfl
  | apply i =>
      simp only [follow]
      split
      · split <;> rfl
      · rfl
  | finishTopology =>
      simp only [follow]
      split <;> rfl
  | _ => rfl

@[simp] theorem follow_sent : (s.follow a expired after).sent = s.sent := by
  cases a with
  | check i =>
      simp only [follow]
      split <;> rfl
  | apply i =>
      simp only [follow]
      split
      · split <;> rfl
      · rfl
  | finishTopology =>
      simp only [follow]
      split <;> rfl
  | _ => rfl

/-- Beside those that flush or apply, a step of the tenant leaves what is to be told alone. -/
theorem follow_quiet (s : Announcing) (expired : Bool) (after : Tenant) (quiet : a.quiet) : (s.follow a expired after).announcing = s.announcing ∧
    (s.follow a expired after).answering = s.answering ∧ (s.follow a expired after).publishing = s.publishing := by
  cases a with
  | send | apply | fail | flush | handle => cases quiet
  | check i =>
      simp only [follow]
      split <;> exact ⟨rfl, rfl, rfl⟩
  | finishTopology =>
      simp only [follow]
      split <;> exact ⟨rfl, rfl, rfl⟩
  | _ => exact ⟨rfl, rfl, rfl⟩

/-- What shall be announced of a request is built at its check. -/
theorem follow_planned {i : TaskId} (other : a.task ≠ some i) : (s.follow a expired after).planned i = s.planned i := by
  cases a with
  | check j =>
      have apart : i ≠ j := fun same => other (congrArg some same.symm)
      simp only [follow]
      split
      · exact Function.update_of_ne apart ..
      · rfl
  | apply j =>
      simp only [follow]
      split
      · split <;> rfl
      · rfl
  | finishTopology =>
      simp only [follow]
      split <;> rfl
  | _ => rfl

/-- Whoever publishes holds his locks, and has been told that his record is durable. -/
structure Publishers (s : Announcing) : Prop where
  sent : ∀ i, s.publishing i ≠ [] → ∃ request held pending,
    s.tenant.tasks i = .sent request held pending ∧ request.1.early = false
  durable : ∀ i, s.publishing i ≠ [] → s.tenant.writer.outcomes (.request i) = some true
  told : ∀ i, s.publishing i ≠ [] → .request i ∉ s.answering

/-- Whoever publishes gives no lock back. -/
theorem Publishers.keeps (publishers : s.Publishers) (may : s.mayTake a) {i : TaskId} (some : s.publishing i ≠ []) :
    a ≠ .release i := by
  rintro rfl
  obtain ⟨_, _, _, phase, late⟩ := publishers.sent i some
  simp only [mayTake, early, phase, late, Bool.false_or, Bool.and_eq_true, List.isEmpty_iff] at may
  exact some may.2

theorem Publishers.work (publishers : s.Publishers) {writer : LogWriter} {n : Nat} {ok : Bool}
    (queued : s.tenant.Queued) (outcomes : writer.outcomes = (s.tenant.writer.answer n ok).outcomes) {i : TaskId}
    (some : s.publishing i ≠ []) : writer.outcomes (.request i) = Option.some true ∧
      .request i ∉ (s.tenant.writer.queue.take n).map WalCommand.sender := by
  have durable := publishers.durable i some
  have apart : .request i ∉ (s.tenant.writer.queue.take n).map WalCommand.sender := by
    intro first
    obtain ⟨c, inside, same⟩ := List.mem_map.mp first
    have waiting := (queued.waiting c (List.mem_of_mem_take inside)).2
    rw [same, durable] at waiting
    cases waiting
  rw [outcomes, LogWriter.answer_outcomes, if_neg apart]
  exact ⟨durable, apart⟩

/-- Applying a change of a request that does not apply early hands its notices to the caller. -/
theorem follow_apply (expired : Bool) (after : Tenant) {i : TaskId} {request : Request.Prepared} {held : List Handle} {h : Handle} {change : Event}
    {rest : List (Handle × Event)} (phase : s.tenant.tasks i = .sent request held ((h, change) :: rest)) :
    (s.follow (.apply i) expired after).announcing = s.announcing ∧
      (s.follow (.apply i) expired after).answering = s.answering ∧
      (s.follow (.apply i) expired after).publishing = if request.1.early then s.publishing else
        Function.update s.publishing i (s.publishing i ++ Announcement.sendings (s.place (.request i))
          ⟨s.tenant.noticeOf h change (if expired then .expired else .released), after.hearers h⟩) := by
  simp only [follow, phase]
  split <;> exact ⟨rfl, rfl, rfl⟩

theorem Publishers.apply (publishers : s.Publishers) {i : TaskId} {request : Request.Prepared} {held : List Handle}
    {h : Handle} {change : Event} {rest : List (Handle × Event)} (may : s.mayTake (.apply i))
    (phase : s.tenant.tasks i = .sent request held ((h, change) :: rest)) (mayApply : s.tenant.mayApply i request)
    (tasks : after.tasks = Function.update s.tenant.tasks i (.sent request held rest))
    (writer : after.writer = s.tenant.writer) : (s.follow (.apply i) expired after).Publishers := by
  obtain ⟨_, answering, publishing⟩ := follow_apply expired after phase
  have before : ∀ j, (s.follow (.apply i) expired after).publishing j ≠ [] →
      s.publishing j ≠ [] ∨ j = i ∧ request.1.early = false := by
    intro j some
    rw [publishing] at some
    split at some
    · exact .inl some
    · next late =>
        by_cases own : j = i
        · exact .inr ⟨own, by simpa using late⟩
        · rw [Function.update_of_ne own] at some
          exact .inl some
  refine ⟨fun j some => ?_, fun j some => ?_, fun j some => ?_⟩
  · rw [follow_tenant, tasks]
    by_cases own : j = i
    · subst own
      refine ⟨request, held, rest, Function.update_self .., ?_⟩
      rcases before j some with already | ⟨_, late⟩
      · obtain ⟨_, _, _, phase', late⟩ := publishers.sent j already
        cases phase'.symm.trans phase
        exact late
      · exact late
    · rw [Function.update_of_ne own]
      exact publishers.sent j ((before j some).resolve_right fun same => own same.1)
  · rw [follow_tenant, writer]
    rcases before j some with already | ⟨rfl, late⟩
    · exact publishers.durable j already
    · simpa [Tenant.mayApply, late] using mayApply
  · rw [answering]
    rcases before j some with already | ⟨rfl, late⟩
    · exact publishers.told j already
    · simpa [mayTake, early, phase, late, hears] using may

theorem Publishers.follow (publishers : s.Publishers) (queued : s.tenant.Queued) (may : s.mayTake a)
    (took : s.tenant.Took shards a after) : (s.follow a expired after).Publishers := by
  cases quiet : a.quiet with
  | true =>
      obtain ⟨_, answering, publishing⟩ := s.follow_quiet expired after quiet
      have other : ∀ i, s.publishing i ≠ [] → a.task ≠ some i := by
        intro i some
        obtain ⟨_, _, _, phase, _⟩ := publishers.sent i some
        exact took.sender_other quiet phase (publishers.keeps may some)
      refine ⟨fun i some => ?_, fun i some => ?_, fun i some => ?_⟩ <;> rw [publishing] at some
      · rw [follow_tenant, took.tasks_other (other i some)]
        exact publishers.sent i some
      · rw [follow_tenant, took.outcome_stays quiet]
        exact publishers.durable i some
      · rw [answering]
        exact publishers.told i some
  | false =>
      cases took with
      | @send j _ _ _ was =>
          have other : ∀ i, s.publishing i ≠ [] → i ≠ j := by
            rintro i some rfl
            obtain ⟨_, _, _, phase, _⟩ := publishers.sent i some
            cases phase.symm.trans was
          refine ⟨fun i some => ?_, fun i some => ?_, publishers.told⟩
          · obtain ⟨request, held, pending, phase, late⟩ := publishers.sent i some
            exact ⟨request, held, pending, (Function.update_of_ne (other i some) ..).trans phase, late⟩
          · refine (LogWriter.push_outcomes fun same => ?_).trans (publishers.durable i some)
            rw [WalCommand.write_sender] at same
            exact other i some (Sender.request.inj same)
      | apply was mayApply => exact publishers.apply may was mayApply rfl rfl
      | @fail j _ _ _ was _ failed =>
          refine ⟨fun i some => ?_, publishers.durable, publishers.told⟩
          obtain ⟨request, held, pending, phase, late⟩ := publishers.sent i some
          have other : i ≠ j := by
            rintro rfl
            cases failed.symm.trans (publishers.durable i some)
          refine ⟨request, held, pending, ?_, late⟩
          change ((s.tenant.setTask j _).unlock _).tasks i = _
          rw [Tenant.unlock_tasks, Tenant.setTask_tasks, if_neg other, phase]
      | flush taken =>
          obtain ⟨_, outcomes, _⟩ := LogWriter.flush_takes taken
          exact ⟨publishers.sent, fun i some => (publishers.work queued outcomes some).1,
            fun i some => (publishers.work queued outcomes some).2⟩
      | handle taken =>
          obtain ⟨senders, _, ⟨_, outcomes⟩, _⟩ := LogWriter.handle_takes taken
          refine ⟨publishers.sent, fun i some => (publishers.work queued outcomes some).1, fun i some => ?_⟩
          have apart := (publishers.work queued outcomes some).2
          rwa [senders] at apart
      | _ => cases quiet

end Announcing

end Deltat
