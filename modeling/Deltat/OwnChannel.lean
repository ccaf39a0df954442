import Deltat.Publishing
import Deltat.ResourceForest

/-! # What a resource's own channel tells

The log writer announces what it has flushed of holds, bookings and commits, and callers publish
the rest themselves. Both go through the lock of the resource, so that its own channel tells of its
changes in the order of the log.
-/

namespace Deltat

open Lib Machine Limits

/-! ## What goes to the own channel -/

section Own

variable {r : Ulid}

/-- The changes of a resource that its own channel is told of. -/
def ownNotices (r : Ulid) (sendings : List Sending) : List Event :=
  (sendings.filter fun x => x.channel = r ∧ x.notice.event.resourceId? = some r).map (·.notice.event)

/-- What it shall be told of records: each change of the resource, for a commit entry its release
    and then its booking. -/
def changeNotices (r : Ulid) (records : List Event) : List Event :=
  (records.flatMap (Event.changesOn r)).map Event.broadcastable

theorem changeNotices_append (xs ys : List Event) : changeNotices r (xs ++ ys) = changeNotices r xs ++ changeNotices r ys := by
  simp only [changeNotices, List.flatMap_append, List.map_append]

@[simp] theorem ownNotices_nil : ownNotices r [] = [] := rfl

@[simp] theorem ownNotices_append (xs ys : List Sending) :
    ownNotices r (xs ++ ys) = ownNotices r xs ++ ownNotices r ys := by
  simp only [ownNotices, List.filter_append, List.map_append]

theorem ownNotices_cons (x : Sending) (xs : List Sending) : ownNotices r (x :: xs) = ownNotices r [x] ++ ownNotices r xs :=
  ownNotices_append [x] xs

theorem ownNotices_others {xs : List Sending} (others : ∀ x ∈ xs, x.notice.event.resourceId? ≠ some r) :
    ownNotices r xs = [] := by
  rw [ownNotices, List.map_eq_nil_iff, List.filter_eq_nil_iff]
  intro x inside own
  exact others x inside (of_decide_eq_true own).2

/-- A notice of a change goes to the own channel of its resource once. -/
theorem ownNotices_sendings {store : InMemoryStore} {rid : Ulid} {parent : Option Ulid} {notice : Notice}
    (about : notice.event.resourceId? = some rid)
    (apart : rid = r → r ∉ NotifyingEngine.successors store (maxHierarchyDepth + 1) parent) (place : Nat) :
    ownNotices r (Announcement.sendings place ⟨notice, NotifyingEngine.recipients store rid parent⟩) =
      if rid = r then [notice.event] else [] := by
  by_cases own : rid = r
  · subst own
    have above : (NotifyingEngine.successors store (maxHierarchyDepth + 1) parent).filter (· = rid) = [] := by
      rw [List.filter_eq_nil_iff]
      intro x inside same
      exact apart rfl (of_decide_eq_true same ▸ inside)
    simp [ownNotices, Announcement.sendings, NotifyingEngine.recipients, List.filter_map, Function.comp_def, about, above]
  · rw [if_neg own]
    apply ownNotices_others
    intro x inside
    obtain ⟨_, _, rfl⟩ := List.mem_map.mp inside
    simp [about, own]

/-- What the log writer announces of an early write on the own channel of a resource is what the
    record changes of that resource, for a commit entry its release and then its booking. -/
theorem ownNotices_announcements {store : InMemoryStore} {parent : Ulid → Option Ulid} {ev : Event} (early : ev.early)
    (apart : ev.changesOn r ≠ [] → r ∉ NotifyingEngine.successors store (maxHierarchyDepth + 1) (parent r)) (place : Nat) :
    ownNotices r ((ev.announcements store parent).flatMap (·.sendings place)) =
      (ev.changesOn r).map Event.broadcastable := by
  cases ev with
  | holdsCommitted commits =>
      induction commits with
      | nil => rfl
      | cons c rest ih =>
          have split : (Event.holdsCommitted (c :: rest)).changesOn r =
              c.events.filter (·.resourceId? = some r) ++ (Event.holdsCommitted rest).changesOn r := by
            simp only [Event.changesOn, Event.perResource, List.flatMap_cons, List.filter_append]
          have own : c.events.filter (·.resourceId? = some r) = if c.resourceId = r then c.events else [] := by
            by_cases own : c.resourceId = r <;> simp [HoldCommit.events, Event.resourceId?, own]
          rw [split] at apart ⊢
          have here : c.resourceId = r →
              r ∉ NotifyingEngine.successors store (maxHierarchyDepth + 1) (parent c.resourceId) := by
            intro same
            rw [same]
            apply apart
            rw [own, if_pos same]
            exact List.cons_ne_nil _ _
          have later := ih rfl fun some => apart (List.append_ne_nil_of_right_ne_nil _ some)
          simp only [Event.announcements] at later ⊢
          rw [List.flatMap_cons, List.flatMap_append, ownNotices_append, later, List.map_append]
          simp only [List.flatMap_cons, List.flatMap_nil, List.append_nil, ownNotices_append]
          rw [ownNotices_sendings rfl here, ownNotices_sendings rfl here, own]
          split <;> rfl
  | holdPlaced id rid | bookingConfirmed id rid =>
      simp only [Event.announcements, Event.resourceId?, Option.map_some, Option.toList_some, List.flatMap_singleton]
      rw [ownNotices_sendings rfl]
      · by_cases own : rid = r <;> simp [Event.changesOn, Event.perResource, Event.resourceId?, Notice.of, own]
      · rintro rfl
        apply apart
        simp [Event.changesOn, Event.perResource, Event.resourceId?]
  | _ => cases early

/-- The same for records that are queued together. -/
theorem ownNotices_placed {store : InMemoryStore} {parent : Ulid → Option Ulid} {records : List Event}
    (early : ∀ ev ∈ records, ev.early)
    (apart : records.flatMap (Event.changesOn r) ≠ [] →
      r ∉ NotifyingEngine.successors store (maxHierarchyDepth + 1) (parent r)) (place : Nat) :
    ownNotices r (Announcement.placed place (records.map (·.announcements store parent))) =
      changeNotices r records := by
  induction records generalizing place with
  | nil => rfl
  | cons ev rest ih =>
      rw [List.flatMap_cons] at apart
      have first := ownNotices_announcements (early ev List.mem_cons_self)
        (fun some => apart (List.append_ne_nil_of_left_ne_nil some _)) place
      have later := ih (fun ev inside => early ev (List.mem_cons_of_mem _ inside))
        (fun some => apart (List.append_ne_nil_of_right_ne_nil _ some)) (place + 1)
      rw [List.map_cons, Announcement.placed, ownNotices_append, first, later, changeNotices, changeNotices,
        List.flatMap_cons, List.map_append]

end Own

namespace Announcing

variable {shards : Shards} {s s' : Announcing} {a : Tenant.Action} {after : Tenant} {expired : Bool}

/-! ## What the log writer announces -/

section Planned

variable {r : Ulid}

/-- What the log writer announces of records on the own channel of a resource. -/
def earlyNotices (r : Ulid) (records : List Event) : List Event := changeNotices r (records.filter Event.early)

theorem earlyNotices_append (xs ys : List Event) : earlyNotices r (xs ++ ys) = earlyNotices r xs ++ earlyNotices r ys := by
  rw [earlyNotices, List.filter_append, changeNotices_append]
  rfl

/-- What is built under the locks of a request tells its own channel of the resource once. -/
theorem announcements_own {t : Tenant} (inOrder : t.InOrder r) (rooted : t.Rooted) {i : TaskId}
    {request : Request.Prepared} {held : List Handle} {records : List Event}
    (phase : t.tasks i = .sending request held records) (place : Nat) :
    ownNotices r (Announcement.placed place (t.announcements request held records)) = earlyNotices r records := by
  have kinds := inOrder.kinds i request held records phase
  unfold Tenant.announcements earlyNotices
  split
  · next ahead =>
      have early : ∀ ev ∈ records, ev.early := fun ev inside => (kinds ev inside).trans ahead
      rw [List.filter_eq_self.mpr early]
      apply ownNotices_placed early
      intro some
      have mine := (Tenant.changesFor_queued inOrder phase).2 some
      have guarded : t.guard held r = t.memory.store.getResource r := by
        unfold Tenant.guard
        cases found : held.find? (·.1 = r) with
        | none =>
            have absent := List.find?_eq_none.mp found _ mine
            simp [Memory.current] at absent
        | some h =>
            have named : h.1 = r := by simpa using List.find?_some found
            have inside := inOrder.handles i h (by rw [phase]; exact List.mem_of_find?_eq_some found) named
            rw [Option.bind_some, inside, Memory.read_current]
      rw [guarded]
      exact rooted.not_above r _
  · next late =>
      have none : records.filter Event.early = [] :=
        List.filter_eq_nil_iff.mpr fun ev inside => by rwa [kinds ev inside]
      rw [none]
      rfl

/-- Whatever the log writer will announce of a command is what it changes early. -/
structure Planned (r : Ulid) (s : Announcing) : Prop where
  decided : ∀ i request held records, s.tenant.tasks i = .sending request held records →
    ∀ place, ownNotices r (Announcement.placed place (s.planned i)) = earlyNotices r records
  queued : List.Forall₂ (fun (c : WalCommand) xs => ownNotices r xs = earlyNotices r c.records)
    s.tenant.writer.queue s.announces

theorem Planned.decided_follow (planned : s.Planned r) (inOrder : after.InOrder r) (rooted : after.Rooted)
    (took : s.tenant.Took shards a after) (i : TaskId) (request : Request.Prepared) (held : List Handle)
    (records : List Event) (phase : after.tasks i = .sending request held records) (place : Nat) :
    ownNotices r (Announcement.placed place ((s.follow a expired after).planned i)) = earlyNotices r records := by
  by_cases own : a.task = some i
  · have built := announcements_own inOrder rooted phase place
    cases took with
    | check =>
        cases own
        rw [Tenant.setTask_self] at phase
        cases phase
        simpa only [Announcing.follow, Tenant.setTask_self, Function.update_self] using built
    | start | lookUp | lock | allLocked | claim | send | apply | release | fail | answer | refuse =>
        cases own
        simp at phase
    | _ => cases own
  · rw [took.tasks_other own] at phase
    rw [follow_planned own]
    exact planned.decided i request held records phase place

theorem Planned.queued_follow (planned : s.Planned r) (took : s.tenant.Took shards a after) :
    List.Forall₂ (fun (c : WalCommand) xs => ownNotices r xs = earlyNotices r c.records)
      after.writer.queue (s.follow a expired after).announces := by
  have append : ∀ {c : WalCommand} {xs : List Sending}, ownNotices r xs = earlyNotices r c.records →
      List.Forall₂ (fun (c : WalCommand) xs => ownNotices r xs = earlyNotices r c.records)
        (s.tenant.writer.queue ++ [c]) (s.announces ++ [xs]) :=
    fun same => List.rel_append planned.queued (.cons same .nil)
  cases took with
  | send phase =>
      apply append
      rw [WalCommand.write_records]
      exact planned.decided _ _ _ _ phase _
  | sendCreate | sendDelete | beginCompaction | submit => exact append rfl
  | flush taken =>
      rw [(LogWriter.flush_takes taken).1]
      exact List.forall₂_drop _ planned.queued
  | handle taken =>
      rw [(LogWriter.handle_takes taken).2.1]
      exact List.forall₂_drop _ planned.queued
  | check =>
      simp only [Announcing.follow, Tenant.setTask_self]
      exact planned.queued
  | apply phase =>
      simp only [Announcing.follow, phase]
      split <;> exact planned.queued
  | finishCreate phase | finishDelete phase =>
      simp only [Announcing.follow, phase]
      exact planned.queued
  | _ => exact planned.queued

end Planned

/-! ## What is told -/

section Told

variable {r : Ulid}

/-- What whoever has locked a resource has applied of it and not published. -/
def unsent (s : Announcing) (r : Ulid) : List Event :=
  (s.tenant.lockedBy (s.tenant.memory.current r)).elim [] fun i => ownNotices r (s.publishing i)

/-- What he has still to publish of what is durable. -/
def untold (s : Announcing) (r : Ulid) : List Event :=
  s.unsent r ++ (s.tenant.unpublished r).map Event.broadcastable

/-- Only whoever has locked a resource publishes changes of it. -/
def OwnerPublishes (s : Announcing) (r : Ulid) : Prop :=
  ∀ i, ownNotices r (s.publishing i) ≠ [] → s.tenant.lockedBy (s.tenant.memory.current r) = some i

theorem OwnerPublishes.unsent (owner : s.OwnerPublishes r) {i : TaskId} (some : ownNotices r (s.publishing i) ≠ []) :
    s.unsent r = ownNotices r (s.publishing i) := by
  rw [Announcing.unsent, owner i some, Option.elim_some]

theorem unsent_nil (none : ∀ i, ownNotices r (s.publishing i) = []) : s.unsent r = [] := by
  unfold unsent
  cases s.tenant.lockedBy (s.tenant.memory.current r) with
  | none => rfl
  | some i => exact none i

/-- What is published of a resource does not hang on who has locked it. -/
theorem OwnerPublishes.unsent_congr (owner : s.OwnerPublishes r) (owner' : s'.OwnerPublishes r)
    (same : ∀ i, ownNotices r (s'.publishing i) = ownNotices r (s.publishing i)) : s'.unsent r = s.unsent r := by
  by_cases busy : ∃ i, ownNotices r (s.publishing i) ≠ []
  · obtain ⟨i, some⟩ := busy
    rw [owner.unsent some, owner'.unsent (by rwa [same]), same]
  · have none : ∀ i, ownNotices r (s.publishing i) = [] := fun i => not_not.mp fun some => busy ⟨i, some⟩
    rw [unsent_nil none, unsent_nil fun i => (same i).trans (none i)]

theorem untold_locked (some : s.untold r ≠ []) : s.tenant.lockedBy (s.tenant.memory.current r) ≠ none := by
  intro free
  apply some
  simp [untold, unsent, Tenant.unpublished, free]

/-- What has been sent on the own channel of a resource, and what is still on its way to it, is
    what the flushed records change of the resource, in their order. -/
structure Tells (s : Announcing) (r : Ulid) : Prop where
  owner : s.OwnerPublishes r
  calm : s.untold r ≠ [] → s.tenant.earlyOn r = []
  behind : ownNotices r s.announcing ≠ [] → s.untold r ≠ [] →
    ∀ i, s.tenant.lockedBy (s.tenant.memory.current r) = some i → .request i ∈ s.answering
  whole : ownNotices r s.sent ++ ownNotices r s.announcing ++ s.untold r = changeNotices r s.tenant.writer.flushed

/-- A step that makes nothing durable and tells nothing. -/
theorem Tells.keep (tells : s.Tells r) (took : s.tenant.Took shards a s'.tenant)
    (current : s'.tenant.memory.current r = s.tenant.memory.current r) (owner : s'.OwnerPublishes r)
    (sent : s'.sent = s.sent) (announcing : s'.announcing = s.announcing) (answering : s'.answering = s.answering)
    (untold : s'.untold r = s.untold r) (early : s.untold r ≠ [] → s'.tenant.earlyOn r = s.tenant.earlyOn r)
    (flushed : s'.tenant.writer.flushed = s.tenant.writer.flushed) : s'.Tells r where
  owner := owner
  calm some := by
    rw [untold] at some
    rw [early some, tells.calm some]
  behind busy some i owner' := by
    rw [announcing] at busy
    rw [untold] at some
    rw [answering]
    rw [current] at owner'
    exact tells.behind busy some i ((took.owner_was owner').resolve_right (untold_locked some))
  whole := by
    rw [sent, announcing, untold, flushed]
    exact tells.whole

theorem Tells.quiet (tells : s.Tells r) (inOrder : s.tenant.InOrder r) (publishers : s.Publishers) (may : s.mayTake a)
    (took : s.tenant.Took shards a after) (quiet : a.quiet) : (s.follow a expired after).Tells r := by
  obtain ⟨announcing, answering, publishing⟩ := s.follow_quiet expired after quiet
  have current := took.current inOrder.standing
  have owner : (s.follow a expired after).OwnerPublishes r := by
    intro i some
    rw [publishing] at some
    have busy : s.publishing i ≠ [] := fun none => some (congrArg (ownNotices r) none)
    obtain ⟨_, _, _, phase, _⟩ := publishers.sent i busy
    rw [follow_tenant, current]
    exact took.owner_stays inOrder.locks quiet (tells.owner i some)
      (took.sender_other quiet phase (publishers.keeps may busy))
  have untold : (s.follow a expired after).untold r = s.untold r := by
    rw [Announcing.untold, tells.owner.unsent_congr owner (fun i => by rw [publishing]), follow_tenant,
      took.unpublished inOrder quiet]
    rfl
  have writer : after.earlyOn r = s.tenant.earlyOn r ∧ after.writer.flushed = s.tenant.writer.flushed := by
    rcases took.quiet_writer (r := r) quiet with same | ⟨command, pushed, nothing⟩
    · exact ⟨by rw [Tenant.earlyOn, same, Tenant.earlyOn], by rw [same]⟩
    · have more : after.writer.unflushed = s.tenant.writer.unflushed ++ command.records := by
        rw [pushed]
        exact inOrder.queued.front.push_unflushed command
      refine ⟨?_, by rw [pushed]; rfl⟩
      rw [Tenant.earlyOn_append more, Tenant.filter_untouched nothing, List.append_nil]
  exact tells.keep (by rw [follow_tenant]; exact took) (by rw [follow_tenant]; exact current)
    owner follow_sent announcing answering untold (fun _ => by rw [follow_tenant]; exact writer.1)
    (by rw [follow_tenant]; exact writer.2)

theorem Tells.send (tells : s.Tells r) (inOrder : s.tenant.InOrder r) {i : TaskId} {request : Request.Prepared}
    {held : List Handle} {records : List Event} (phase : s.tenant.tasks i = .sending request held records)
    (took : s.tenant.Took shards (.send i) after) (memory : after.memory = s.tenant.memory)
    (lockedBy : after.lockedBy = s.tenant.lockedBy)
    (tasks : after.tasks = Function.update s.tenant.tasks i (.sent request held (Tenant.pendingOn held records)))
    (writer : after.writer = s.tenant.writer.push (.write (.request i) records)) (publishers : s.Publishers) :
    (s.follow (.send i) expired after).Tells r := by
  obtain ⟨unpublished, before⟩ := inOrder.send_unpublished phase memory lockedBy tasks writer
  have owner : (s.follow (.send i) expired after).OwnerPublishes r := by
    intro j some
    rw [follow_tenant, memory, lockedBy]
    exact tells.owner j some
  have untold : (s.follow (.send i) expired after).untold r = s.untold r := by
    rw [Announcing.untold, tells.owner.unsent_congr owner (fun _ => rfl), follow_tenant, unpublished]
    rfl
  have unflushed : after.writer.unflushed = s.tenant.writer.unflushed ++ records := by
    rw [writer, inOrder.queued.front.push_unflushed, WalCommand.write_records]
  apply tells.keep  took (by rw [follow_tenant, memory]) owner rfl rfl rfl untold
  · intro some
    have nothing : records.flatMap (Event.changesOn r) = [] := by
      by_contra own
      obtain ⟨published, mine⟩ := before own
      apply some
      rw [Announcing.untold, published, List.map_nil, List.append_nil, Announcing.unsent, mine, Option.elim_some]
      by_contra busy
      obtain ⟨_, _, _, sent, _⟩ := publishers.sent i fun none => busy (congrArg (ownNotices r) none)
      cases phase.symm.trans sent
    rw [follow_tenant, Tenant.earlyOn_append unflushed, Tenant.filter_untouched nothing, List.append_nil]
  · rw [follow_tenant, writer]
    rfl

theorem Tells.fail (tells : s.Tells r) (inOrder : s.tenant.InOrder r) {i : TaskId} {request : Request.Prepared}
    {held : List Handle} {pending : List (Handle × Event)} (phase : s.tenant.tasks i = .sent request held pending)
    (late : request.1.early = false) (failed : s.tenant.writer.outcomes (.request i) = some false)
    (took : s.tenant.Took shards (.fail i) ((s.tenant.setTask i (.answered false)).unlock held))
    (publishers : s.Publishers) :
    (s.follow (.fail i) expired ((s.tenant.setTask i (.answered false)).unlock held)).Tells r := by
  have owner : (s.follow (.fail i) expired ((s.tenant.setTask i (.answered false)).unlock held)).OwnerPublishes r := by
    intro j some
    have before := tells.owner j some
    have busy : s.publishing j ≠ [] := fun none => some (congrArg (ownNotices r) none)
    have kept : s.tenant.memory.current r ∉ held := by
      intro mine
      have same := Option.some.inj (before.symm.trans (inOrder.locks.owned i _ (by rw [phase]; exact mine)))
      subst same
      cases failed.symm.trans (publishers.durable j busy)
    change (if s.tenant.memory.current r ∈ held then none else s.tenant.lockedBy (s.tenant.memory.current r)) = _
    rw [if_neg kept]
    exact before
  have untold : (s.follow (.fail i) expired ((s.tenant.setTask i (.answered false)).unlock held)).untold r =
      s.untold r := by
    rw [Announcing.untold, tells.owner.unsent_congr owner (fun _ => rfl), follow_tenant,
      inOrder.fail_unpublished phase late failed]
    rfl
  exact tells.keep  took rfl owner rfl rfl rfl untold (fun _ => rfl) rfl

/-- A change that a caller applies he publishes behind those before it. -/
theorem Tells.apply (tells : s.Tells r) (inOrder : s.tenant.InOrder r) (rooted : after.Rooted) {i : TaskId}
    {request : Request.Prepared} {held : List Handle} {h : Handle} {change : Event} {rest : List (Handle × Event)}
    (phase : s.tenant.tasks i = .sent request held ((h, change) :: rest)) (mayApply : s.tenant.mayApply i request)
    (took : s.tenant.Took shards (.apply i) after) (current : after.memory.current r = s.tenant.memory.current r)
    (lockedBy : after.lockedBy = s.tenant.lockedBy)
    (tasks : after.tasks = Function.update s.tenant.tasks i (.sent request held rest))
    (writer : after.writer = s.tenant.writer) : (s.follow (.apply i) expired after).Tells r := by
  obtain ⟨announcing, answering, publishing⟩ := follow_apply expired after phase
  obtain ⟨split, holds⟩ := inOrder.apply_unpublished phase mayApply current lockedBy tasks writer
  have bound := inOrder.bound i
  rw [phase] at bound
  obtain ⟨routed, inHeld, _⟩ := bound.pending _ List.mem_cons_self
  have named : h.1 = r ↔ h = s.tenant.memory.current r :=
    ⟨inOrder.handles i h (by rw [phase]; exact inHeld), fun same => by rw [same]; rfl⟩
  have published : ∀ j, ownNotices r ((s.follow (.apply i) expired after).publishing j) =
      ownNotices r (s.publishing j) ++
        if j = i ∧ h = s.tenant.memory.current r ∧ request.1.early = false then [change.broadcastable] else [] := by
    intro j
    rw [publishing]
    cases ahead : request.1.early with
    | true => simp
    | false =>
        by_cases own : j = i
        · subst own
          simp only [Bool.false_eq_true, ↓reduceIte, Function.update_self, ownNotices_append, true_and, and_true]
          rw [Tenant.hearers, ownNotices_sendings]
          · simp only [Tenant.noticeOf_event, named]
          · rw [Tenant.noticeOf_event, Event.broadcastable_resourceId, routed]
          · intro same
            rw [named.mp same, ← current, Memory.read_current]
            exact rooted.not_above r _
        · simp [own]
  have owner : (s.follow (.apply i) expired after).OwnerPublishes r := by
    intro j some
    rw [follow_tenant, current, lockedBy]
    rw [published] at some
    split at some
    · next here =>
        rw [here.1]
        exact holds here.2.1
    · rw [List.append_nil] at some
      exact tells.owner j some
  have untold : (s.follow (.apply i) expired after).untold r = s.untold r := by
    rw [Announcing.untold, Announcing.untold, follow_tenant, split, List.map_append, ← List.append_assoc]
    congr 1
    by_cases here : h = s.tenant.memory.current r ∧ request.1.early = false
    · have now := published i
      rw [if_pos ⟨rfl, here⟩] at now
      rw [owner.unsent (by rw [now]; simp), now, if_pos here, Announcing.unsent, holds here.1, Option.elim_some]
      rfl
    · rw [if_neg here, List.map_nil, List.append_nil]
      apply tells.owner.unsent_congr owner
      intro j
      rw [published, if_neg fun all => here all.2, List.append_nil]
  have early : after.earlyOn r = s.tenant.earlyOn r := by rw [Tenant.earlyOn, writer, Tenant.earlyOn]
  exact tells.keep  (by rw [follow_tenant]; exact took)
    (by rw [follow_tenant]; exact current) owner follow_sent announcing answering untold
    (fun _ => by rw [follow_tenant]; exact early) (by rw [follow_tenant, writer])

/-- What a step of the log writer makes durable, it announces, or whoever waits for it will publish. -/
theorem Tells.work (tells : s.Tells r) (inOrder : s.tenant.InOrder r) {writer : LogWriter} {n : Nat} {ok : Bool}
    {batch : List Event} (took : s.tenant.writer.Took writer)
    (outcomes : writer.outcomes = (s.tenant.writer.answer n ok).outcomes)
    (flushed : writer.flushed = s.tenant.writer.flushed ++ batch) (idle : s.announcing = [])
    (tenant : s'.tenant = { s.tenant with writer }) (sent : s'.sent = s.sent) (publishing : s'.publishing = s.publishing)
    (answering : s'.answering = (s.tenant.writer.queue.take n).map WalCommand.sender)
    (announcing : ownNotices r s'.announcing = earlyNotices r batch) : s'.Tells r := by
  obtain ⟨batch', freed, flushes⟩ := inOrder.flush took
  have same : batch' = batch := List.append_cancel_left (flushes.flushed.symm.trans flushed)
  subst same
  obtain ⟨split, changes⟩ := flushes.changes
  have owner : s'.OwnerPublishes r := by
    intro i some
    rw [tenant]
    exact tells.owner i (by rwa [publishing] at some)
  have untold : s'.untold r = s.untold r ++ freed.map Event.broadcastable := by
    rw [Announcing.untold, tells.owner.unsent_congr owner (fun i => by rw [publishing]), tenant, flushes.unpublished,
      List.map_append, ← List.append_assoc]
    rfl
  have whole := tells.whole
  rw [idle, ownNotices_nil, List.append_nil] at whole
  -- What is to be published goes before everything that is still queued to be announced.
  have before : earlyNotices r batch' ≠ [] → s.untold r = [] := by
    intro some
    by_contra still
    rw [tells.calm still] at split
    apply some
    rw [earlyNotices, changeNotices, (List.append_eq_nil_iff.mp split.symm).1, List.map_nil]
  refine ⟨owner, fun some => ?_, fun busy some i owner' => ?_, ?_⟩
  · rw [tenant]
    by_cases nothing : freed = []
    · rw [untold, nothing, List.map_nil, List.append_nil] at some
      rw [tells.calm some] at split
      exact (List.append_eq_nil_iff.mp split.symm).2
    · exact flushes.ends nothing
  · rw [announcing] at busy
    rw [untold, before busy, List.nil_append] at some
    rw [tenant] at owner'
    rw [answering]
    exact flushes.answered inOrder.queued outcomes (fun none => some (by rw [none]; rfl)) owner'
  · rw [sent, announcing, untold, tenant]
    have durable : changeNotices r batch' = earlyNotices r batch' ++ freed.map Event.broadcastable := by
      rw [earlyNotices, changeNotices, changeNotices, changes, List.map_append]
    change _ = changeNotices r writer.flushed
    rw [flushed, changeNotices_append, ← whole, durable]
    by_cases nothing : earlyNotices r batch' = []
    · rw [nothing, List.append_nil, List.nil_append, List.append_assoc]
    · rw [before nothing, List.append_nil, List.nil_append, List.append_assoc]

/-! ### Sending -/

theorem Tells.announce (tells : s.Tells r) {first : Sending} {rest : List Sending} (next : s.announcing = first :: rest) :
    ({ s with sent := s.sent ++ [first], announcing := rest } : Announcing).Tells r := by
  refine ⟨tells.owner, tells.calm, fun busy some i owner => ?_, ?_⟩
  · apply tells.behind _ some i owner
    rw [next, ownNotices_cons]
    exact List.append_ne_nil_of_right_ne_nil _ busy
  · have whole := tells.whole
    rw [next, ownNotices_cons, ← List.append_assoc] at whole
    simp only [ownNotices_append]
    exact whole

theorem Tells.publish (tells : s.Tells r) (publishers : s.Publishers) {i : TaskId} {first : Sending}
    {rest : List Sending} (next : s.publishing i = first :: rest) (tenant : s'.tenant = s.tenant)
    (sent : s'.sent = s.sent ++ [first]) (announcing : s'.announcing = s.announcing) (answering : s'.answering = s.answering)
    (publishing : s'.publishing = Function.update s.publishing i rest) : s'.Tells r := by
  have parts : ownNotices r (s.publishing i) = ownNotices r [first] ++ ownNotices r rest := by rw [next, ownNotices_cons]
  have now : ownNotices r (s'.publishing i) = ownNotices r rest := by rw [publishing, Function.update_self]
  have others : ∀ j, j ≠ i → s'.publishing j = s.publishing j := by
    intro j other
    rw [publishing, Function.update_of_ne other]
  have owner : s'.OwnerPublishes r := by
    intro j some
    rw [tenant]
    apply tells.owner j
    by_cases own : j = i
    · subst own
      rw [parts, ← now]
      exact List.append_ne_nil_of_right_ne_nil _ some
    · rwa [← others j own]
  have unsent : s.unsent r = ownNotices r [first] ++ s'.unsent r := by
    by_cases own : ownNotices r [first] = []
    · rw [own, List.nil_append]
      refine (tells.owner.unsent_congr owner fun j => ?_).symm
      by_cases same : j = i
      · subst same
        rw [now, parts, own, List.nil_append]
      · rw [others j same]
    · have some : ownNotices r (s.publishing i) ≠ [] := by
        rw [parts]
        exact List.append_ne_nil_of_left_ne_nil own _
      rw [tells.owner.unsent some, parts, Announcing.unsent, tenant, tells.owner i some, Option.elim_some, now]
  have untold : s.untold r = ownNotices r [first] ++ s'.untold r := by
    rw [Announcing.untold, Announcing.untold, unsent, tenant, List.append_assoc]
  have less : s'.untold r ≠ [] → s.untold r ≠ [] := by
    intro some
    rw [untold]
    exact List.append_ne_nil_of_right_ne_nil _ some
  refine ⟨owner, fun some => ?_, fun busy some j owner' => ?_, ?_⟩
  · rw [tenant]
    exact tells.calm (less some)
  · rw [announcing] at busy
    rw [tenant] at owner'
    rw [answering]
    exact tells.behind busy (less some) j owner'
  · have whole := tells.whole
    rw [untold] at whole
    rw [sent, announcing, tenant, ownNotices_append, ← whole]
    by_cases own : ownNotices r [first] = []
    · rw [own, List.append_nil, List.nil_append]
    · -- The log writer has announced what it flushed before it answered whoever publishes.
      have busy : s.publishing i ≠ [] := by
        rw [next]
        exact List.cons_ne_nil _ _
      have some : ownNotices r (s.publishing i) ≠ [] := by
        rw [parts]
        exact List.append_ne_nil_of_left_ne_nil own _
      have quiet : ownNotices r s.announcing = [] := by
        by_contra still
        apply publishers.told i busy
        apply tells.behind still _ i (tells.owner i some)
        rw [untold]
        exact List.append_ne_nil_of_left_ne_nil own _
      rw [quiet, List.append_nil, List.append_nil, List.append_assoc]

theorem Tells.tell (tells : s.Tells r) {first : Sending} (about : first.notice.event.resourceId? ≠ some r)
    (tenant : s'.tenant = s.tenant) (sent : s'.sent = s.sent ++ [first]) (announcing : s'.announcing = s.announcing)
    (answering : s'.answering = s.answering) (publishing : s'.publishing = s.publishing) : s'.Tells r := by
  have owner : s'.OwnerPublishes r := by
    intro i some
    rw [publishing] at some
    rw [tenant]
    exact tells.owner i some
  have untold : s'.untold r = s.untold r := by
    rw [Announcing.untold, tells.owner.unsent_congr owner (fun i => by rw [publishing]), tenant]
    rfl
  refine ⟨owner, ?_, ?_, ?_⟩
  · rw [untold, tenant]
    exact tells.calm
  · rw [announcing, untold, tenant, answering]
    exact tells.behind
  · rw [sent, announcing, untold, tenant, ownNotices_append,
      ownNotices_others (List.forall_mem_singleton.mpr about), List.append_nil]
    exact tells.whole

/-! ## Every step -/

/-- What is announced of commands is what they change early. -/
theorem earlyNotices_flatten {queue : List WalCommand} {announces : List (List Sending)}
    (planned : List.Forall₂ (fun (c : WalCommand) xs => ownNotices r xs = earlyNotices r c.records) queue announces) :
    ownNotices r announces.flatten = earlyNotices r (queue.flatMap WalCommand.records) := by
  induction planned with
  | nil => rfl
  | cons first _ ih => rw [List.flatten_cons, ownNotices_append, first, ih, List.flatMap_cons, earlyNotices_append]

theorem follow_telling {x : Sending} (inside : x ∈ (s.follow a expired after).telling) :
    x ∈ s.telling ∨ x.notice.event.resourceId? = none := by
  cases a with
  | check i =>
      simp only [follow] at inside
      split at inside <;> exact .inl inside
  | apply i =>
      simp only [follow] at inside
      split at inside
      · split at inside <;> exact .inl inside
      · exact .inl inside
  | finishTopology =>
      simp only [follow] at inside
      split at inside
      · obtain ⟨_, _, rfl⟩ := List.mem_map.mp inside
        exact .inr rfl
      · obtain ⟨_, _, rfl⟩ := List.mem_map.mp inside
        exact .inr rfl
      · exact .inl inside
  | _ => exact .inl inside

/-- What its own channel is told of a resource, with all that it rests on. -/
structure OwnOrder (s : Announcing) (r : Ulid) : Prop where
  inOrder : s.tenant.InOrder r
  rooted : s.tenant.Rooted
  publishers : s.Publishers
  planned : s.Planned r
  telling : ∀ x ∈ s.telling, x.notice.event.resourceId? = none
  tells : s.Tells r

theorem on_ownOrder {e : Engine} (reachable : Engine.Reachable (fun _ _ => True) e) (r : Ulid) : (on e).OwnOrder r where
  inOrder := Tenant.on_inOrder e r
  rooted := .inl (@Tenant.on_hierarchy ⟨1, fun _ => 0⟩ e reachable).2.1
  publishers := ⟨fun _ some => absurd rfl some, fun _ some => absurd rfl some, fun _ some => absurd rfl some⟩
  planned := ⟨fun _ _ _ _ phase => (by cases phase), .nil⟩
  telling _ inside := (List.not_mem_nil inside).elim
  tells := ⟨fun _ some => absurd rfl some, fun some => absurd rfl some, fun busy => absurd rfl busy, rfl⟩

theorem OwnOrder.tells_follow (order : s.OwnOrder r) (may : s.mayTake a) (rooted : after.Rooted)
    (took : s.tenant.Took shards a after) : (s.follow a expired after).Tells r := by
  have idle : a.quiet = false → (∀ i, a ≠ .send i) → (∀ i, a ≠ .apply i) → (∀ i, a ≠ .fail i) → s.announcing = [] := by
    intro loud send apply fail
    cases a with
    | flush | handle =>
        simp only [mayTake, Bool.and_eq_true, List.isEmpty_iff] at may
        exact may.1
    | send i => exact absurd rfl (send i)
    | apply i => exact absurd rfl (apply i)
    | fail i => exact absurd rfl (fail i)
    | _ => cases loud
  have whole := took
  cases quiet : a.quiet with
  | true => exact order.tells.quiet order.inOrder order.publishers may took quiet
  | false =>
      cases took with
      | send phase => exact order.tells.send order.inOrder phase whole rfl rfl rfl rfl order.publishers
      | apply phase mayApply =>
          have current := whole.current order.inOrder.standing
          exact order.tells.apply order.inOrder rooted phase mayApply whole current rfl rfl rfl
      | fail phase late failed => exact order.tells.fail order.inOrder phase late failed whole order.publishers
      | @flush n ok writer taken worked =>
          obtain ⟨queue, outcomes, flushed⟩ := LogWriter.flush_takes taken
          have silent := idle quiet (by simp) (by simp) (by simp)
          refine order.tells.work order.inOrder worked outcomes flushed silent rfl rfl rfl rfl ?_
          cases ok with
          | true => exact earlyNotices_flatten (List.forall₂_take n order.planned.queued)
          | false => rfl
      | @handle _ writer taken worked =>
          obtain ⟨senders, queue, ⟨ok, outcomes⟩, flushed⟩ := LogWriter.handle_takes taken
          have silent := idle quiet (by simp) (by simp) (by simp)
          have nothing : writer.flushed = s.tenant.writer.flushed ++ [] := by rw [flushed, List.append_nil]
          exact order.tells.work order.inOrder worked outcomes nothing silent rfl rfl rfl senders.symm
            (congrArg (ownNotices r) silent)
      | _ => cases quiet

/-- A step other than the delete of the resource. -/
def Action.spares (r : Ulid) : Action → Prop
  | .tenant a _ => a ≠ .delete r
  | _ => True

theorem OwnOrder.step (order : s.OwnOrder r) {a : Action} (spares : a.spares r) (taken : s.step shards a = some s') :
    s'.OwnOrder r := by
  cases a with
  | tenant a expired =>
      simp only [Announcing.step, Option.ite_none_right_eq_some, Option.map_eq_some_iff] at taken
      obtain ⟨may, after, taken, rfl⟩ := taken
      have took := Tenant.took taken
      have inOrder := order.inOrder.took took spares
      have rooted := order.rooted.took order.inOrder.queued took
      refine ⟨?_, ?_, order.publishers.follow order.inOrder.queued may took, ⟨?_, ?_⟩, fun x inside => ?_,
        order.tells_follow may rooted took⟩
      · rwa [follow_tenant]
      · rwa [follow_tenant]
      · rw [follow_tenant]
        exact order.planned.decided_follow inOrder rooted took
      · rw [follow_tenant]
        exact order.planned.queued_follow took
      · exact (follow_telling inside).elim (order.telling x) id
  | announce =>
      simp only [Announcing.step] at taken
      split at taken
      · next next =>
          cases taken
          exact ⟨order.inOrder, order.rooted, ⟨order.publishers.sent, order.publishers.durable, order.publishers.told⟩,
            ⟨order.planned.decided, order.planned.queued⟩, order.telling, order.tells.announce next⟩
      · cases taken
  | reply =>
      simp only [Announcing.step] at taken
      split at taken
      · next silent answers =>
          cases taken
          refine ⟨order.inOrder, order.rooted, ⟨order.publishers.sent, order.publishers.durable, fun i some inside => ?_⟩,
            ⟨order.planned.decided, order.planned.queued⟩, order.telling,
            ⟨order.tells.owner, order.tells.calm, fun busy => ?_, order.tells.whole⟩⟩
          · apply order.publishers.told i some
            rw [answers]
            exact List.mem_cons_of_mem _ inside
          · exact absurd (congrArg (ownNotices r) silent) busy
      · cases taken
  | publish i =>
      simp only [Announcing.step] at taken
      split at taken
      · next first rest next =>
          cases taken
          have before : ∀ j, Function.update s.publishing i rest j ≠ [] → s.publishing j ≠ [] := by
            intro j some
            by_cases own : j = i
            · subst own
              rw [next]
              exact List.cons_ne_nil _ _
            · rwa [Function.update_of_ne own] at some
          exact ⟨order.inOrder, order.rooted, ⟨fun j some => order.publishers.sent j (before j some),
              fun j some => order.publishers.durable j (before j some),
              fun j some => order.publishers.told j (before j some)⟩,
            ⟨order.planned.decided, order.planned.queued⟩, order.telling,
            order.tells.publish order.publishers next rfl rfl rfl rfl rfl⟩
      · cases taken
  | tell =>
      simp only [Announcing.step] at taken
      split at taken
      · next first rest next =>
          cases taken
          have about : first.notice.event.resourceId? ≠ some r := by
            rw [order.telling first (by rw [next]; exact List.mem_cons_self)]
            exact fun same => by cases same
          exact ⟨order.inOrder, order.rooted, ⟨order.publishers.sent, order.publishers.durable, order.publishers.told⟩,
            ⟨order.planned.decided, order.planned.queued⟩,
            fun x inside => order.telling x (by rw [next]; exact List.mem_cons_of_mem _ inside),
            order.tells.tell about rfl rfl rfl rfl rfl⟩
      · cases taken

/-- However operations on a resource go on together with everything else, its own channel has been
    sent the changes of the first flushed records, in the order of the log. Once nothing waits to be
    announced and nobody has locked the resource, it has been sent those of all of them. -/
theorem own_channel_in_log_order {e : Engine} (reachable : Engine.Reachable (fun _ _ => True) e)
    (reached : Reaches (step shards) (fun _ a => a.spares r) (on e) s) :
    ownNotices r s.sent <+: changeNotices r s.tenant.writer.flushed ∧
      (s.announcing = [] → s.tenant.lockedBy (s.tenant.memory.current r) = none →
        ownNotices r s.sent = changeNotices r s.tenant.writer.flushed) := by
  have order : s.OwnOrder r :=
    reached.invariant (I := (OwnOrder · r)) (on_ownOrder reachable r) fun _ _ _ order spares taken => order.step spares taken
  have whole := order.tells.whole
  refine ⟨⟨_, by rw [← whole, List.append_assoc]⟩, fun silent free => ?_⟩
  have told : s.untold r = [] := not_not.mp fun some => untold_locked some free
  rwa [silent, told, ownNotices_nil, List.append_nil, List.append_nil] at whole

/-! ## A hold, its commit and its cancellation in one batch -/

/-- A request for one resource up to its check of the ids. -/
def reaching (i : TaskId) (given : Request) : List Tenant.Action := [.start i given, .lookUp i, .lock i, .allLocked i]

def turning : List Tenant.Action := List.flatten [
  reaching 0 (.placeHold 7 1 ⟨⟨10, 20⟩, Tenant.slot_valid⟩ 100),
  [.claim 0, .check 0 0 Tenant.noRules, .send 0, .apply 0, .release 0],
  reaching 1 (.commitHolds [(7, 8, none)]),
  [.claim 1, .check 1 0 Tenant.noRules, .send 1, .apply 1, .apply 1, .release 1],
  reaching 2 (.cancelBooking 8), [.check 2 0 Tenant.noRules, .send 2, .flush 3 true]]

def turn : List Action := List.flatten [
  turning.map (.tenant · false), [.announce, .announce, .announce, .reply, .reply, .reply, .tenant (.apply 2) false,
  .publish 2, .tenant (.release 2) false]]

def turned : Announcing := (Machine.run (step Tenant.oneShard) turn (on Tenant.bareRoom)).getD (on Tenant.bareRoom)

theorem turned_ran : Machine.run (step Tenant.oneShard) turn (on Tenant.bareRoom) = some turned := by
  have possible : (Machine.run (step Tenant.oneShard) turn (on Tenant.bareRoom)).isSome := by decide +kernel
  obtain ⟨s, ran⟩ := Option.isSome_iff_exists.mp possible
  rw [turned, ran]
  rfl

/-- Two of the notices are of one record. The log writer sends three, and the caller the last. -/
theorem turned_told : turned.announcing = [] ∧ turned.tenant.lockedBy (turned.tenant.memory.current 1) = none ∧
    turned.tenant.writer.flushed.length = 3 ∧ ownNotices 1 turned.sent =
      [.holdPlaced 7 1 ⟨10, 20⟩ 100, .holdReleased 7 1, .bookingConfirmed 8 1 ⟨10, 20⟩ none, .bookingCancelled 8 1] ∧
    ownNotices 1 turned.sent = changeNotices 1 turned.tenant.writer.flushed := by
  have reached : Reaches (step Tenant.oneShard) (fun _ a => a.spares 1) (on Tenant.bareRoom) turned := by
    apply Machine.reaches_of_run _ turned_ran
    simp [turn, turning, reaching, Action.spares]
  have silent : turned.announcing.isEmpty ∧ turned.tenant.lockedBy (turned.tenant.memory.current 1) = none ∧
      turned.tenant.writer.flushed.length = 3 ∧ ownNotices 1 turned.sent =
        [.holdPlaced 7 1 ⟨10, 20⟩ 100, .holdReleased 7 1, .bookingConfirmed 8 1 ⟨10, 20⟩ none, .bookingCancelled 8 1] := by
    decide +kernel
  obtain ⟨silent, free, length, told⟩ := silent
  have silent := List.isEmpty_iff.mp silent
  exact ⟨silent, free, length, told, (own_channel_in_log_order Tenant.bareRoom_reachable reached).2 silent free⟩

end Told

end Announcing

end Deltat
