import Deltat.Runs
import Deltat.TenantSteps

/-! # Nothing on a deleted resource

A delete unmaps the entities of its resource under a read guard, gives the guard back, and
takes the resource off the table after its flush. A request that has looked the resource up
before may lock it after. As long as every lock is taken on a resource that no delete has
unlinked, nothing is logged about a resource behind its delete.
-/

namespace Deltat

open Lib Machine

/-- Whether the second record leaves a resource alone that the first one deletes. -/
def Event.Spares (earlier later : Event) : Prop := ∀ r, earlier = .resourceDeleted r → later.changesOn r = []

/-- What holds of one request: `live` of the resources it is about to change. -/
structure Task.Bound (live : Handle → Prop) (task : Task) : Prop where
  decided : ∀ request held records, task = .sending request held records →
    (∀ ev ∈ records, ev.isChange) ∧ ∀ change ∈ records.flatMap Event.perResource, ∃ h ∈ held, change.resourceId? = some h.1
  pending : ∀ p ∈ task.pending, p.2.resourceId? = some p.1.1 ∧ p.1 ∈ task.held ∧ live p.1

theorem Task.Bound.mono {live live' : Handle → Prop} {task : Task} (bound : task.Bound live)
    (lives : ∀ h ∈ task.held, live h → live' h) : task.Bound live' where
  decided := bound.decided
  pending p inside := by
    obtain ⟨routed, inHeld, alive⟩ := bound.pending p inside
    exact ⟨routed, inHeld, lives p.1 inHeld alive⟩

/-- A request that has decided nothing. -/
theorem Task.Bound.plain {live : Handle → Prop} {task : Task}
    (undecided : ∀ request held records, task ≠ .sending request held records) (unsent : task.pending = []) :
    task.Bound live where
  decided request held records same := absurd same (undecided request held records)
  pending p inside := by simp [unsent] at inside

namespace Tenant

variable {shards : Shards} {t t' : Tenant} {a : Action}

/-- Whether a delete under way has unmapped the resource's entities. -/
def Unlinked (t : Tenant) (r : Ulid) : Prop := ∃ stage, t.topology = .deleting r stage ∧ stage ≠ .found

/-- A resource that is in the table and that no delete has unlinked. -/
def Live (t : Tenant) (h : Handle) : Prop := t.memory.lookUp h.1 = some h ∧ ¬ t.Unlinked h.1

/-- An action other than a create. -/
def Action.createsNothing : Action → Bool
  | .create .. => false
  | _ => true

/-- When a request queues its records, no resource that it has locked has been deleted. -/
def SendsLive (t : Tenant) : Action → Prop
  | .send i => ∀ h ∈ (t.tasks i).held, t.Live h
  | _ => True

/-- Requests change live resources, and the entity index names only such. -/
structure Linked (t : Tenant) : Prop where
  locks : t.Locks
  noCreate : ∀ id parentId name capacity bufferAfter sent,
    t.topology ≠ .creating id parentId name capacity bufferAfter sent
  bound : ∀ i, (t.tasks i).Bound t.Live
  indexed : ∀ x r, t.memory.store.getResourceForEntity x = some r →
    ¬ t.Unlinked r ∧ ∃ rs, t.memory.store.getResource r = some rs ∧ x ∈ rs.intervals.map (·.id)
  removed : ∀ r, 0 < t.memory.removed r → t.memory.store.getResource r = none

theorem on_linked {e : Engine} (consistent : e.store.Consistent) : (on e).Linked where
  locks := on_locks e
  noCreate _ _ _ _ _ _ same := by cases same
  bound _ := .plain (fun _ _ _ same => by cases same) rfl
  indexed x r mapped := ⟨fun ⟨_, phase, _⟩ => (nomatch phase), (consistent.entities x r).mp mapped⟩
  removed _ positive := (Nat.lt_irrefl 0 positive).elim

/-- What is live depends on the table and on the deletes. -/
theorem live_congr (removed : t'.memory.removed = t.memory.removed) (topology : t'.topology = t.topology)
    (table : ∀ r, (t'.memory.store.getResource r).isSome = (t.memory.store.getResource r).isSome) :
    t'.Live = t.Live := by
  funext h
  simp only [Live, Unlinked, lookUp_eq, removed, topology, table]

/-- A request moves on without touching memory. -/
theorem Linked.setTask (linked : t.Linked) {i : TaskId} {task : Task} (locks : t'.Locks)
    (memory : t'.memory = t.memory) (topology : t'.topology = t.topology)
    (tasks : t'.tasks = Function.update t.tasks i task) (bound : task.Bound t.Live) : t'.Linked := by
  have live : t'.Live = t.Live := live_congr (by rw [memory]) topology (by simp [memory])
  have unlinked : t'.Unlinked = t.Unlinked := by
    unfold Unlinked
    rw [topology]
  refine ⟨locks, by rw [topology]; exact linked.noCreate, fun j => ?_, by rw [unlinked, memory]; exact linked.indexed,
    by rw [memory]; exact linked.removed⟩
  rw [live, tasks, Function.update_apply]
  split
  · exact bound
  · exact linked.bound j

/-- What a change leaves on its resource, however often an id stands there. -/
theorem mem_applySingle_kept {rs : ResourceState} {change : Event} {x : Ulid} (inside : x ∈ rs.intervals.map (·.id))
    (kept : change.removes ≠ some x) : x ∈ (rs.applySingle change).intervals.map (·.id) := by
  obtain ⟨i, there, rfl⟩ := List.mem_map.mp inside
  refine List.mem_map_of_mem ?_
  rw [ResourceState.applySingle_eq, ResourceState.setFields_intervals,
    (ResourceState.put_perm change.adds).mem_iff]
  refine List.mem_append_right _ ?_
  cases removed : change.removes with
  | none => exact there
  | some y =>
      refine (List.mem_eraseP_of_neg ?_).mpr there
      simpa using fun same : i.id = y => kept (same ▸ removed)

theorem mem_applySingle_added (rs : ResourceState) {change : Event} {x : Ulid}
    (added : change.adds.map (·.id) = some x) : x ∈ (rs.applySingle change).intervals.map (·.id) := by
  obtain ⟨i, adds, rfl⟩ := Option.map_eq_some_iff.mp added
  refine List.mem_map_of_mem ?_
  rw [ResourceState.applySingle_eq, ResourceState.setFields_intervals,
    (ResourceState.put_perm change.adds).mem_iff, adds]
  exact List.mem_append_left _ List.mem_cons_self

theorem Linked.apply (linked : t.Linked) {i : TaskId} {request : Request.Prepared} {held : List Handle} {h : Handle}
    {change : Event} {rest : List (Handle × Event)} (phase : t.tasks i = .sent request held ((h, change) :: rest))
    (locks : t'.Locks) (topology : t'.topology = t.topology)
    (tasks : t'.tasks = Function.update t.tasks i (.sent request held rest))
    (memory : t'.memory = t.memory.apply h change) : t'.Linked := by
  have bound := linked.bound i
  rw [phase] at bound
  obtain ⟨routed, inHeld, looked, standing⟩ := bound.pending _ List.mem_cons_self
  obtain ⟨current, present⟩ := lookUp_eq.mp looked
  obtain ⟨rs, found⟩ := Option.isSome_iff_exists.mp present
  have store : t'.memory.store = t.memory.store.replayChange change := by
    rw [memory, Memory.apply, if_pos current]
    simp only [InMemoryStore.replayChange, routed]
  have table := InMemoryStore.replayChange_getResource (s := t.memory.store) routed
  have unlinked : t'.Unlinked = t.Unlinked := by
    unfold Unlinked
    rw [topology]
  have kept : ∀ r, (t'.memory.store.getResource r).isSome = (t.memory.store.getResource r).isSome := by
    intro r
    rw [memory, Memory.apply_present routed]
  have removed : t'.memory.removed = t.memory.removed := by rw [memory, Memory.apply_removed]
  have live : t'.Live = t.Live := live_congr removed topology kept
  refine ⟨locks, by rw [topology]; exact linked.noCreate, fun j => ?_, fun x r mapped => ?_, fun r positive => ?_⟩
  · rw [live, tasks, Function.update_apply]
    split
    · exact ⟨fun _ _ _ same => (by cases same), fun p inside => bound.pending p (List.mem_cons_of_mem _ inside)⟩
    · exact linked.bound j
  · rw [store, InMemoryStore.replayChange_getResourceForEntity routed found] at mapped
    rw [unlinked, store, table, found]
    split at mapped
    · next added =>
        cases mapped
        exact ⟨standing, _, if_pos rfl, mem_applySingle_added rs added⟩
    · split at mapped
      · cases mapped
      · next _ kept =>
          obtain ⟨standing', rs', found', inside⟩ := linked.indexed x r mapped
          refine ⟨standing', ?_⟩
          by_cases same : r = h.1
          · subst same
            cases found.symm.trans found'
            exact ⟨_, if_pos rfl, mem_applySingle_kept inside kept⟩
          · exact ⟨rs', (if_neg same).trans found', inside⟩
  · have absent := linked.removed r (removed ▸ positive)
    rw [← Option.isNone_iff_eq_none, ← Option.not_isSome, kept, absent]
    rfl

/-- Unmapping needs a read guard, so nobody is changing the resource. -/
theorem Linked.unlink (linked : t.Linked) {id : Ulid} {rs : ResourceState}
    (free : t.lockedBy (t.memory.current id) = none) (present : t.memory.store.getResource id = some rs)
    (locks : t'.Locks) (topology : t'.topology = .deleting id .unlinked) (tasks : t'.tasks = t.tasks)
    (memory : t'.memory = { t.memory with store := t.memory.store.unlink rs id }) : t'.Linked := by
  have table : ∀ r, t'.memory.store.getResource r = t.memory.store.getResource r := by
    intro r
    rw [memory, InMemoryStore.unlink_getResource]
  have index : ∀ x, t'.memory.store.getResourceForEntity x =
      if x ∈ rs.intervals.map (·.id) then none else t.memory.store.getResourceForEntity x := by
    intro x
    rw [memory, InMemoryStore.unlink]
    cases rs.parentId <;> simp
  have removed : t'.memory.removed = t.memory.removed := by rw [memory]
  have unlinked : ∀ r, t'.Unlinked r → r = id := by
    rintro r ⟨stage, phase', _⟩
    rw [topology] at phase'
    cases phase'
    rfl
  refine ⟨locks, by rw [topology]; exact fun _ _ _ _ _ _ same => (by cases same), fun i => ?_, fun x r mapped => ?_,
    fun r positive => ?_⟩
  · rw [tasks]
    refine (linked.bound i).mono fun h inside live => ⟨?_, fun gone => ?_⟩
    · rw [lookUp_eq, removed, table]
      exact lookUp_eq.mp live.1
    · have same : h = t.memory.current id := by
        have current := (lookUp_eq.mp live.1).1
        rw [unlinked _ gone] at current
        exact Prod.ext (unlinked _ gone) current
      exact linked.locks.free free i (same ▸ inside)
  · rw [index] at mapped
    split at mapped
    · cases mapped
    · next notHere =>
        obtain ⟨_, rs', found, inside⟩ := linked.indexed x r mapped
        refine ⟨fun gone => notHere ?_, rs', (table r).trans found, inside⟩
        rw [unlinked r gone, present] at found
        cases found
        exact inside
  · rw [removed] at positive
    rw [table]
    exact linked.removed r positive

/-- Behind the flush, the resource leaves the table. -/
theorem Linked.remove (linked : t.Linked) {id : Ulid} (phase : t.topology = .deleting id .sent) (locks : t'.Locks)
    (topology : t'.topology = .idle) (tasks : t'.tasks = t.tasks) (memory : t'.memory = t.memory.remove id) :
    t'.Linked := by
  have gone : t.Unlinked id := ⟨.sent, phase, fun same => by cases same⟩
  have table : ∀ r, r ≠ id → t'.memory.store.getResource r = t.memory.store.getResource r := by
    intro r apart
    rw [memory]
    simp [Memory.remove, apart]
  have absent : t'.memory.store.getResource id = none := by
    rw [memory]
    simp [Memory.remove]
  have removed : ∀ r, r ≠ id → t'.memory.removed r = t.memory.removed r := by
    intro r apart
    rw [memory]
    simp [Memory.remove, apart]
  have unlinked : ∀ r, ¬ t'.Unlinked r := by
    rintro r ⟨stage, phase', _⟩
    rw [topology] at phase'
    cases phase'
  refine ⟨locks, by rw [topology]; exact fun _ _ _ _ _ _ same => (by cases same), fun i => ?_, fun x r mapped => ?_,
    fun r positive => ?_⟩
  · rw [tasks]
    refine (linked.bound i).mono fun h _ live => ⟨?_, unlinked _⟩
    have apart : h.1 ≠ id := fun same => live.2 (same ▸ gone)
    rw [lookUp_eq, removed _ apart, table _ apart]
    exact lookUp_eq.mp live.1
  · have before : t.memory.store.getResourceForEntity x = some r := by
      rw [memory] at mapped
      exact mapped
    obtain ⟨standing, rs, found, inside⟩ := linked.indexed x r before
    have apart : r ≠ id := fun same => standing (same ▸ gone)
    exact ⟨unlinked r, rs, (table r apart).trans found, inside⟩
  · by_cases same : r = id
    · rw [same]
      exact absent
    · rw [removed r same] at positive
      rw [table r same]
      exact linked.removed r positive

/-- A step of a delete that leaves memory alone, and the delete at the stage it was or further. -/
theorem Linked.proceed (linked : t.Linked) (locks : t'.Locks) (memory : t'.memory = t.memory)
    (tasks : t'.tasks = t.tasks) (deleting : ∀ id parentId name capacity bufferAfter sent,
      t'.topology ≠ .creating id parentId name capacity bufferAfter sent)
    (unlinked : ∀ r, t'.Unlinked r → t.Unlinked r) : t'.Linked where
  locks := locks
  noCreate := deleting
  bound i := by
    rw [tasks]
    refine (linked.bound i).mono fun h _ live => ⟨?_, fun gone => live.2 (unlinked _ gone)⟩
    rw [memory]
    exact live.1
  indexed x r mapped := by
    rw [memory] at mapped ⊢
    obtain ⟨standing, found⟩ := linked.indexed x r mapped
    exact ⟨fun gone => standing (unlinked r gone), found⟩
  removed := by rw [memory]; exact linked.removed

/-- What a request decides on is about resources that it has locked. -/
theorem admitted_bound {e : Engine} {request : Request} {targets : List Ulid} {held : List Handle}
    {rules : Ulid → InheritedRules} {records : List Event}
    (admitted : request.admitRecords e (t.guard held) rules targets = .ok records) : (∀ ev ∈ records, ev.isChange) ∧
      ∀ change ∈ records.flatMap Event.perResource, ∃ h ∈ held, change.resourceId? = some h.1 := by
  obtain ⟨changes, covers⟩ := Request.admitRecords_covers admitted
  refine ⟨changes, fun change inside => ?_⟩
  obtain ⟨rid, covered⟩ := covers change inside
  obtain ⟨rs, shown, _⟩ := covered.guarded
  obtain ⟨h, found, _⟩ := Option.bind_eq_some_iff.mp shown
  have same : h.1 = rid := by simpa using List.find?_some found
  exact ⟨h, List.mem_of_find?_eq_some found, by rw [same]; exact covered.routed⟩

theorem Linked.took (linked : t.Linked) (took : t.Took shards a t') (creates : a.createsNothing)
    (sends : SendsLive t a) : t'.Linked := by
  have locks := linked.locks.took took
  cases took with
  | start | lookUp | lock | allLocked | claim | release | fail | answer | refuse =>
      exact linked.setTask locks rfl rfl rfl (.plain (fun _ _ _ same => by cases same) rfl)
  | @check i _ _ request targets held _ records phase _ admitted =>
      refine linked.setTask locks rfl rfl rfl ⟨fun _ _ _ same => ?_, fun p inside => (List.not_mem_nil inside).elim⟩
      cases same
      exact admitted_bound admitted
  | @send i request held records phase =>
      refine linked.setTask locks rfl rfl rfl ⟨fun _ _ _ same => (by cases same), fun p inside => ?_⟩
      obtain ⟨inHeld, _, routed⟩ := mem_pendingOn.mp inside
      refine ⟨routed, inHeld, sends p.1 ?_⟩
      rw [phase]
      exact inHeld
  | apply phase => exact linked.apply phase locks rfl rfl rfl
  | unlink _ free present => exact linked.unlink free present locks rfl rfl rfl
  | finishDelete phase => exact linked.remove phase locks rfl rfl rfl
  | create => cases creates
  | sendCreate phase | finishCreate phase => exact (linked.noCreate _ _ _ _ _ _ phase).elim
  | delete =>
      refine linked.proceed locks rfl rfl (fun _ _ _ _ _ _ same => by cases same) ?_
      rintro r ⟨stage, phase, further⟩
      cases phase
      exact absurd rfl further
  | clear was | sendDelete was =>
      refine linked.proceed locks rfl rfl (fun _ _ _ _ _ _ same => by cases same) ?_
      rintro r ⟨stage, phase, _⟩
      cases phase
      exact ⟨_, was, fun same => by cases same⟩
  | abandon =>
      refine linked.proceed locks rfl rfl (fun _ _ _ _ _ _ same => by cases same) ?_
      rintro r ⟨stage, phase, _⟩
      cases phase
  | tick | flush | handle | beginCompaction | enterWindow | list | allListed | lookSnapshot | snapshot | submit
  | finishCompaction => exact ⟨locks, linked.noCreate, linked.bound, linked.indexed, linked.removed⟩

end Tenant

/-! ## The log -/

namespace LogWriter

variable {w w' : LogWriter}

/-- The records of the run, with those that are still queued. -/
def ahead (w : LogWriter) : List Event := w.flushed ++ w.queue.flatMap WalCommand.records

@[simp] theorem push_ahead (command : WalCommand) : (w.push command).ahead = w.ahead ++ command.records := by
  simp [ahead, push]

/-- As long as the writer runs, it only works off its queue. -/
theorem Took.ahead (took : w.Took w') (running : w'.failed = false) : w.failed = false ∧ w'.ahead = w.ahead := by
  cases took with
  | flushed n _ running =>
      refine ⟨running, ?_⟩
      simp only [LogWriter.ahead, answer, List.append_assoc, ← List.flatMap_append, List.take_append_drop]
  | refused => cases running
  | began head | stopped head | compacted head | swapped head | kept head =>
      exact ⟨running, by simp [LogWriter.ahead, answer, head, WalCommand.records]⟩

theorem Took.flushed_eq (took : w.Took w') : w'.flushed = w.flushed ∨ w'.failed = false := by
  cases took with
  | flushed _ _ running => exact .inr running
  | _ => exact .inl rfl

/-- A create or a delete is refused only by a writer that has failed. -/
theorem Took.refused_failed (took : w.Took w') (before : w.outcomes .topology = some false → w.failed = true)
    (refused : w'.outcomes .topology = some false) : w'.failed = true := by
  cases took with
  | flushed n =>
      simp only [answer] at refused
      split at refused
      · cases refused
      · exact before refused
  | refused => rfl
  | began head | stopped head | compacted head | swapped head | kept head =>
      apply before
      simpa [answer, head, WalCommand.sender] using refused

end LogWriter

namespace Tenant

variable {shards : Shards} {t t' : Tenant} {a : Action}

/-- A resource that has left the table, or whose delete has queued its record. -/
def Gone (t : Tenant) (r : Ulid) : Prop := t.memory.store.getResource r = none ∨ t.topology = .deleting r .sent

/-- No record comes behind the delete of a resource that it changes. -/
structure Closed (t : Tenant) : Prop where
  log : t.writer.flushed.Pairwise Event.Spares
  ahead : t.writer.failed = false → t.writer.ahead.Pairwise Event.Spares
  gone : t.writer.failed = false → ∀ r, .resourceDeleted r ∈ t.writer.ahead → t.Gone r
  refused : t.writer.outcomes .topology = some false → t.writer.failed = true

theorem on_closed (e : Engine) : (on e).Closed where
  log := .nil
  ahead _ := .nil
  gone _ _ inside := (List.not_mem_nil inside).elim
  refused same := by cases same

theorem Closed.keep (closed : t.Closed) (writer : t'.writer = t.writer)
    (gone : t.writer.failed = false → ∀ r, t.Gone r → t'.Gone r) : t'.Closed where
  log := by rw [writer]; exact closed.log
  ahead := by rw [writer]; exact closed.ahead
  gone running r inside := by
    rw [writer] at running inside
    exact gone running r (closed.gone running r inside)
  refused := by rw [writer]; exact closed.refused

theorem Closed.push (closed : t.Closed) {command : WalCommand} (writer : t'.writer = t.writer.push command)
    (gone : ∀ r, t.Gone r → t'.Gone r) (deletes : ∀ r, .resourceDeleted r ∈ command.records → t'.Gone r)
    (own : command.records.Pairwise Event.Spares)
    (spares : ∀ r, t.Gone r → ∀ later ∈ command.records, later.changesOn r = []) : t'.Closed where
  log := by rw [writer]; exact closed.log
  ahead running := by
    rw [writer] at running ⊢
    rw [LogWriter.push_ahead]
    refine List.pairwise_append.mpr ⟨closed.ahead running, own, fun earlier inside later now r deleted => ?_⟩
    exact spares r (closed.gone running r (deleted ▸ inside)) later now
  gone running r inside := by
    rw [writer] at running inside
    rw [LogWriter.push_ahead] at inside
    rcases List.mem_append.mp inside with before | now
    · exact gone r (closed.gone running r before)
    · exact deletes r now
  refused := by
    rw [writer]
    simp only [LogWriter.push, Function.update_apply]
    split
    · exact fun same => by cases same
    · exact closed.refused

theorem Closed.work (closed : t.Closed) (took : t.writer.Took t'.writer) (memory : t'.memory = t.memory)
    (topology : t'.topology = t.topology) : t'.Closed where
  log := by
    rcases took.flushed_eq with same | running
    · rw [same]
      exact closed.log
    · obtain ⟨before, same⟩ := took.ahead running
      have whole := closed.ahead before
      rw [← same] at whole
      exact (List.pairwise_append.mp whole).1
  ahead running := by
    obtain ⟨before, same⟩ := took.ahead running
    rw [same]
    exact closed.ahead before
  gone running r inside := by
    obtain ⟨before, same⟩ := took.ahead running
    unfold Gone
    rw [memory, topology]
    exact closed.gone before r (same ▸ inside)
  refused := took.refused_failed closed.refused

/-- What a request queues is not about a deleted resource. -/
theorem Closed.send (closed : t.Closed) (linked : t.Linked) {i : TaskId} {request : Request.Prepared}
    {held : List Handle} {records : List Event} (phase : t.tasks i = .sending request held records)
    (sends : ∀ h ∈ held, t.Live h) (writer : t'.writer = t.writer.push (.write (.request i) records))
    (memory : t'.memory = t.memory) (topology : t'.topology = t.topology) : t'.Closed := by
  obtain ⟨changes, routed⟩ := (linked.bound i).decided _ _ _ phase
  have noDelete : ∀ r, .resourceDeleted r ∉ records := fun r inside => nomatch changes _ inside
  have gone : t'.Gone = t.Gone := by
    unfold Gone
    rw [memory, topology]
  refine closed.push writer (fun r => by rw [gone]; exact id) (fun r inside => ?_) ?_ fun r gone later inside => ?_
  · rw [WalCommand.write_records] at inside
    exact absurd inside (noDelete r)
  · rw [WalCommand.write_records]
    refine List.pairwise_of_forall_mem_list fun earlier inside _ _ r deleted => ?_
    exact absurd (deleted ▸ inside) (noDelete r)
  · rw [WalCommand.write_records] at inside
    refine List.filter_eq_nil_iff.mpr fun change isStep onR => ?_
    obtain ⟨h, inHeld, same⟩ := routed change (List.mem_flatMap.mpr ⟨later, inside, isStep⟩)
    have own : h.1 = r := by simpa [same] using onR
    obtain ⟨looked, standing⟩ := sends h inHeld
    rw [own] at standing
    rcases gone with absent | deleting
    · have present := (lookUp_eq.mp looked).2
      rw [own, absent] at present
      cases present
    · exact standing ⟨.sent, deleting, fun same => by cases same⟩

theorem Closed.took (closed : t.Closed) (linked : t.Linked) (took : t.Took shards a t') (creates : a.createsNothing)
    (sends : SendsLive t a) : t'.Closed := by
  cases took with
  | @send i _ held _ phase =>
      have live : ∀ h ∈ (t.tasks i).held, t.Live h := sends
      rw [phase] at live
      exact closed.send linked phase live rfl rfl rfl
  | @apply i _ _ h change _ phase =>
      have bound := linked.bound i
      rw [phase] at bound
      have routed := (bound.pending _ List.mem_cons_self).1
      refine closed.keep rfl fun _ r gone => gone.imp_left fun absent => ?_
      have kept := Memory.apply_present (m := t.memory) routed r
      rw [absent] at kept
      exact Option.not_isSome_iff_eq_none.mp (by simp [kept])
  | create => cases creates
  | sendCreate phase | finishCreate phase => exact (linked.noCreate _ _ _ _ _ _ phase).elim
  | @sendDelete id phase =>
      refine closed.push rfl (fun r gone => gone.imp_right fun deleting => ?_) (fun r inside => ?_)
        (List.pairwise_singleton ..) fun r gone later inside => ?_
      · rw [phase] at deleting
        cases deleting
      · cases List.mem_singleton.mp inside
        exact .inr rfl
      · cases List.mem_singleton.mp inside
        rfl
  | @finishDelete id phase =>
      refine closed.keep rfl fun _ r gone => .inl ?_
      rcases gone with absent | deleting
      · simp [Memory.remove, absent]
      · rw [phase] at deleting
        cases deleting
        simp [Memory.remove]
  | abandon failing =>
      refine closed.keep rfl fun running => ?_
      rcases failing with ⟨refused, _⟩ | ⟨failed, _⟩
      · rw [closed.refused refused] at running
        cases running
      · rw [failed] at running
        cases running
  | unlink phase =>
      refine closed.keep rfl fun _ r gone => gone.imp (fun absent => ?_) fun deleting => ?_
      · rw [InMemoryStore.unlink_getResource]
        exact absent
      · rw [phase] at deleting
        cases deleting
  | delete phase | clear phase =>
      refine closed.keep rfl fun _ r gone => gone.imp_right fun deleting => ?_
      rw [phase] at deleting
      cases deleting
  | flush _ took | handle _ took => exact closed.work took rfl rfl
  | beginCompaction | submit =>
      exact closed.push rfl (fun r => id) (fun r inside => (List.not_mem_nil inside).elim) .nil
        fun r _ later inside => (List.not_mem_nil inside).elim
  | _ => exact closed.keep rfl fun _ r gone => gone

/-- Nothing is logged about a resource behind its delete, and nothing maps to a removed one. -/
def NothingOnDeleted (t : Tenant) : Prop :=
  t.writer.flushed.Pairwise Event.Spares ∧
    ∀ r, 0 < t.memory.removed r → ∀ x, t.memory.store.getResourceForEntity x ≠ some r

theorem Linked.nothing_mapped (linked : t.Linked) {r : Ulid} (removed : 0 < t.memory.removed r) (x : Ulid) :
    t.memory.store.getResourceForEntity x ≠ some r := by
  intro mapped
  obtain ⟨_, rs, found, _⟩ := linked.indexed x r mapped
  rw [linked.removed r removed] at found
  cases found

/-- In every run in which requests only change live resources, nothing comes behind a delete. -/
theorem nothing_on_deleted {e : Engine} (reachable : Engine.Reachable (fun _ _ => True) e)
    (reached : Reaches (step shards) (fun t a => a.createsNothing ∧ SendsLive t a) (on e) t) : t.NothingOnDeleted := by
  have start : (on e).Linked ∧ (on e).Closed := ⟨on_linked reachable.healthy.consistent, on_closed e⟩
  obtain ⟨linked, closed⟩ := reached.invariant (I := fun t => t.Linked ∧ t.Closed) start
    fun t a t' inv allowed taken => ⟨inv.1.took (Tenant.took taken) allowed.1 allowed.2,
      inv.2.took inv.1 (Tenant.took taken) allowed.1 allowed.2⟩
  exact ⟨closed.log, fun r removed x => linked.nothing_mapped removed x⟩

/-! ## A booking and a delete -/

/-- How a request was answered. -/
def outcome (t : Tenant) (i : TaskId) : Option Bool :=
  match t.tasks i with
  | .answered ok => some ok
  | _ => none

/-- An engine with one empty resource. -/
def bareRoom : Engine := (Engine.start 0 1000).next (.op (.createResource 1 none none 1 none))

theorem bareRoom_reachable : Engine.Reachable (fun _ _ => True) bareRoom := .step _ (.start 0 1000) trivial trivial

def booking : Request := .confirmBooking 2 1 ⟨⟨10, 20⟩, slot_valid⟩ none

/-- From the lock up to where the booking can be queued, and what comes then. -/
def decideBooking : List Action := [.lock 0, .allLocked 0, .claim 0, .check 0 0 noRules]

def finishBooking : List Action := [.apply 0, .release 0, .flush 1 true, .answer 0]

def deleteRoom : List Action := [.delete 1, .unlink, .clear, .sendTopology, .flush 1 true, .finishTopology]

/-- The booking looks the resource up before the delete and locks it after. -/
def overtaking : List Action :=
  [.start 0 booking, .lookUp 0] ++ deleteRoom ++ decideBooking ++ [.send 0] ++ finishBooking

def overtaken : Tenant := (Machine.run (step oneShard) overtaking (on bareRoom)).getD (on bareRoom)

theorem overtaken_ran : Machine.run (step oneShard) overtaking (on bareRoom) = some overtaken := by
  have possible : (Machine.run (step oneShard) overtaking (on bareRoom)).isSome := by decide +kernel
  obtain ⟨t, ran⟩ := Option.isSome_iff_exists.mp possible
  rw [overtaken, ran]
  rfl

theorem overtaken_state : overtaken.writer.flushed = [.resourceDeleted 1, .bookingConfirmed 2 1 ⟨10, 20⟩ none] ∧
    overtaken.memory.removed 1 = 1 ∧ overtaken.memory.store.getResourceForEntity 2 = some 1 ∧
    overtaken.outcome 0 = some true := by decide +kernel

/-- The booking is acknowledged behind the delete, and its id maps to the deleted resource. -/
theorem overtaken_acknowledged : Engine.Reachable (fun _ _ => True) bareRoom ∧
    Reaches (step oneShard) (fun _ a => a.createsNothing) (on bareRoom) overtaken ∧
    overtaken.outcome 0 = some true ∧ ¬ overtaken.writer.flushed.Pairwise Event.Spares ∧ ¬ overtaken.NothingOnDeleted := by
  obtain ⟨flushed, removed, mapped, acknowledged⟩ := overtaken_state
  refine ⟨bareRoom_reachable, Machine.reaches_of_run ?_ overtaken_ran, acknowledged, fun apart => ?_, fun nothing => ?_⟩
  · have kinds : overtaking.all Action.createsNothing = true := rfl
    exact fun a inside _ => List.all_eq_true.mp kinds a inside
  · rw [flushed] at apart
    have spared := (List.pairwise_cons.mp apart).1 _ List.mem_cons_self 1 rfl
    cases spared
  · exact nothing.2 1 (by rw [removed]; exact Nat.one_pos) 2 mapped

/-- The booking first and then the delete. -/
theorem booked_then_deleted : ∃ t,
    Reaches (step oneShard) (fun t a => a.createsNothing ∧ SendsLive t a) (on bareRoom) t ∧
      t.writer.flushed = [.bookingConfirmed 2 1 ⟨10, 20⟩ none, .resourceDeleted 1] ∧ t.outcome 0 = some true ∧
      t.NothingOnDeleted := by
  have possible : ((Machine.run (step oneShard) ([.start 0 booking, .lookUp 0] ++ decideBooking) (on bareRoom)).map
      fun t => ((t.tasks 0).held, t.memory.lookUp 1, t.topology)) = some ([(1, 0)], some (1, 0), .idle) := by
    decide +kernel
  obtain ⟨before, decided, state⟩ := Option.map_eq_some_iff.mp possible
  obtain ⟨held, looked, idle⟩ : (before.tasks 0).held = [(1, 0)] ∧ before.memory.lookUp 1 = some (1, 0) ∧
      before.topology = .idle := by simpa using state
  have live : SendsLive before (.send 0) := by
    intro h inside
    rw [held] at inside
    cases List.mem_singleton.mp inside
    refine ⟨looked, fun ⟨_, deleting, _⟩ => ?_⟩
    rw [idle] at deleting
    cases deleting
  have whole : ((Machine.run (step oneShard) ([.start 0 booking, .lookUp 0] ++ decideBooking) (on bareRoom)).bind
      fun t => (t.step oneShard (.send 0)).bind (Machine.run (step oneShard) (finishBooking ++ deleteRoom))).map
        (fun t => (t.writer.flushed, t.outcome 0)) =
      some ([.bookingConfirmed 2 1 ⟨10, 20⟩ none, .resourceDeleted 1], some true) := by decide +kernel
  obtain ⟨t, ran, state⟩ := Option.map_eq_some_iff.mp whole
  rw [decided, Option.bind_some] at ran
  obtain ⟨sent, queued, ran⟩ := Option.bind_eq_some_iff.mp ran
  have reached : Reaches (step oneShard) (fun t a => a.createsNothing ∧ SendsLive t a) (on bareRoom) before :=
    Machine.reaches_of_run (by simp [decideBooking, Action.createsNothing, SendsLive]) decided
  have done := (reached.next (.send 0) ⟨rfl, live⟩ queued).run
    (by simp [finishBooking, deleteRoom, Action.createsNothing, SendsLive]) ran
  exact ⟨t, done, congrArg Prod.fst state, congrArg Prod.snd state, nothing_on_deleted bareRoom_reachable done⟩

end Tenant

end Deltat
