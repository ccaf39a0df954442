import Deltat.EarlyReads
import Deltat.Lib.Progress

/-! # A tenant that winds down

When no new request, create, delete or compaction begins, those under way come to an end: they
cannot go on forever, and as long as one of them is there, one can go on.
-/

namespace Deltat

open Lib Lib.Machine

/-- The resource whose lock a request waits for. -/
def Task.wanted : Task → Option Handle
  | .locking _ _ _ found _ => found
  | _ => none

/-- The resources a request goes through, in its order. -/
def Task.route : Task → List Ulid
  | .locking _ _ held found rest => held.map (·.1) ++ found.toList.map (·.1) ++ rest
  | _ => []

/-! ## The work that is left -/

/-- The steps of a request to its queued records. -/
def Task.ahead : Task → Nat
  | .locking request _ _ found rest => 2 * rest.length + found.toList.length + request.1.claims.length + 3
  | .claiming _ _ _ _ unclaimed => unclaimed.length + 2
  | .sending .. => 1
  | _ => 0

/-- Those from there to its answer. -/
def Task.behind : Task → Nat
  | .sent _ _ pending => pending.length + 2
  | .waiting _ => 1
  | _ => 0

def Topology.ahead : Topology → Nat
  | .creating _ _ _ _ _ false => 1
  | .deleting _ .found => 3
  | .deleting _ .unlinked => 2
  | .deleting _ .cleared => 1
  | _ => 0

def Topology.behind (topology : Topology) : Nat := topology.queued.toNat

/-- The steps of a compaction to its copies. -/
def Compacting.ahead (shards : Shards) : Compacting → Nat
  | .beginning => shards.count + 3
  | .listing visited _ => shards.count - visited + 2
  | .snapshotting .. => 1
  | _ => 0

/-- The lookups and copies, and the answer. -/
def Compacting.behind : Compacting → Nat
  | .snapshotting _ found rest => 2 * rest.length + found.toList.length
  | .submitted => 1
  | _ => 0

namespace LogWriter

variable {w w' : LogWriter}

theorem drop_shortens {queue : List WalCommand} {n : Nat} (one : WalCommand.oneFlush (queue.take n)) :
    (queue.drop n).length < queue.length := by
  cases n with
  | zero => cases one
  | succ n =>
      cases queue with
      | nil => cases one
      | cons first rest => simp

/-- What the log writer answers leaves its queue. -/
theorem Took.shortens (took : w.Took w') : w'.queue.length < w.queue.length := by
  cases took with
  | flushed _ one | refused _ one => exact drop_shortens one
  | began head | stopped head | compacted head | swapped head | kept head => simp [answer, head]

end LogWriter

namespace Tenant

variable {shards : Shards} {t t' : Tenant} {a : Action}

/-- Whether an action is a step of what has begun. -/
def Action.finishes : Action → Bool
  | .tick _ | .start .. | .create .. | .delete _ | .beginCompaction => false
  | _ => true

/-- A check refuses the request. -/
inductive Refuses (t : Tenant) (i : TaskId) : Prop where
  | gone {request : Request.Prepared} {targets : List Ulid} {held : List Handle} {rid : Ulid} {rest : List Ulid}
      (phase : t.tasks i = .locking request targets held none (rid :: rest))
      (gone : t.memory.store.containsResource rid = false)
  | taken {request : Request.Prepared} {targets : List Ulid} {held : List Handle} {claimed rest : List Ulid} {x : Ulid}
      (phase : t.tasks i = .claiming request targets held claimed (x :: rest))
      (taken : t.memory.store.getResourceForEntity x ≠ none)
  | stopped {request : Request.Prepared} {targets : List Ulid} {held : List Handle} {claimed : List Ulid}
      (phase : t.tasks i = .claiming request targets held claimed []) (stopped : t.writer.failed = true)
  | rejected {request : Request.Prepared} {targets : List Ulid} {held : List Handle} {claimed : List Ulid}
      {rules : Ulid → InheritedRules} {error : EngineError} (phase : t.tasks i = .claiming request targets held claimed [])
      (rejected : request.1.admitRecords t.engine (t.guard held) rules targets = .error error)

/-- Whether an action is neither a fault of the disk nor a request that leaves by itself. -/
def Faultless (t : Tenant) : Action → Prop
  | .flush _ ok => ok = true ∨ t.writer.failed = true
  | .handle fault => fault = none
  | .refuse i => t.Refuses i
  | _ => True

/-- Nothing is under way. -/
structure AtRest (t : Tenant) : Prop where
  tasks : ∀ i, t.tasks i = .idle ∨ ∃ ok, t.tasks i = .answered ok
  unlocked : ∀ h, t.lockedBy h = none
  queue : t.writer.queue = []
  topology : t.topology = .idle
  compaction : t.compaction = .idle

/-- The work of the first `n` requests and of the others, down to the commands they queue and the
    lists they go through, and from there. -/
def left (shards : Shards) (n : Nat) (t : Tenant) : Nat ×ₗ Nat :=
  toLex ((∑ i ∈ Finset.range n, (t.tasks i).ahead) + t.topology.ahead +
      t.compaction.ahead shards,
    (∑ i ∈ Finset.range n, (t.tasks i).behind) + t.topology.behind +
      t.compaction.behind + t.writer.queue.length)

/-- Whether only the first `n` requests have begun. -/
def Few (n : Nat) (t : Tenant) : Prop := ∀ i, t.tasks i ≠ .idle → i < n

theorem Few.took {n : Nat} (few : t.Few n) (took : t.Took shards a t') (finishes : a.finishes) : t'.Few n := by
  intro j busy
  by_cases own : a.task = some j
  · apply few
    intro idle
    cases took with
    | start => cases finishes
    | lookUp phase | lock phase | allLocked phase | claim phase | check phase | send phase | apply phase
    | release phase | fail phase | answer phase =>
        cases own
        cases phase.symm.trans idle
    | refuse before =>
        cases own
        rcases before with ⟨_, _, _, _, phase⟩ | ⟨_, _, _, _, phase⟩ <;> cases phase.symm.trans idle
    | _ => cases own
  · rw [took.tasks_other own] at busy
    exact few j busy

/-- Only finitely many requests have begun. -/
theorem Took.few (took : t.Took shards a t') {n : Nat} (few : t.Few n) : ∃ m, t'.Few m := by
  by_cases finishes : a.finishes
  · exact ⟨n, few.took took finishes⟩
  · cases took with
    | @start i =>
        refine ⟨max n (i + 1), fun j busy => ?_⟩
        by_cases own : j = i
        · lia
        · have before := few j (by simpa [own] using busy)
          lia
    | tick | create | delete | beginCompaction => exact ⟨n, few⟩
    | _ => cases finishes rfl

section Work

variable {n : Nat}

/-- A request that moves does some of its work. -/
theorem lowers_task (few : t.Few n) {i : Nat} (busy : t.tasks i ≠ .idle) (others : ∀ j, j ≠ i → t'.tasks j = t.tasks j)
    (topology : t'.topology = t.topology) (compaction : t'.compaction = t.compaction)
    (less : (t'.tasks i).ahead < (t.tasks i).ahead ∨ (t'.tasks i).ahead = (t.tasks i).ahead ∧
      (t'.tasks i).behind < (t.tasks i).behind ∧ t'.writer.queue = t.writer.queue) :
    t'.left shards n < t.left shards n := by
  have inside : i ∈ Finset.range n := Finset.mem_range.mpr (few i busy)
  have ahead := sum_one_moved (f := fun j : Nat => (t'.tasks j).ahead) (g := fun j : Nat => (t.tasks j).ahead) inside
    fun j apart => by rw [others j apart]
  have behind := sum_one_moved (f := fun j : Nat => (t'.tasks j).behind) (g := fun j : Nat => (t.tasks j).behind) inside
    fun j apart => by rw [others j apart]
  simp only [left, topology, compaction]
  apply Prod.Lex.toLex_lt_toLex.mpr
  rcases less with sooner | ⟨same, later, queue⟩
  · left
    simp only
    omega
  · right
    rw [queue]
    simp only
    omega

/-- So does a change of the tree, a compaction or the log writer. -/
theorem lowers_other (tasks : t'.tasks = t.tasks)
    (less : t'.topology.ahead + t'.compaction.ahead shards < t.topology.ahead + t.compaction.ahead shards ∨
      t'.topology.ahead + t'.compaction.ahead shards = t.topology.ahead + t.compaction.ahead shards ∧
      t'.topology.behind + t'.compaction.behind + t'.writer.queue.length <
        t.topology.behind + t.compaction.behind + t.writer.queue.length) : t'.left shards n < t.left shards n := by
  simp only [left, tasks]
  apply Prod.Lex.toLex_lt_toLex.mpr
  simp only
  omega

/-- Every step of what has begun leaves less to do. -/
theorem Took.lowers (took : t.Took shards a t') (few : t.Few n) (finishes : a.finishes) :
    t'.left shards n < t.left shards n := by
  cases took with
  | tick | start | create | delete | beginCompaction => cases finishes
  | lookUp phase | lock phase | allLocked phase | claim phase | check phase | send phase | apply phase
  | release phase | fail phase | answer phase =>
      refine lowers_task few (by rw [phase]; simp) (fun j other => Function.update_of_ne other ..) rfl rfl ?_
      simp [phase, Task.ahead, Task.behind, setTask, unlock]
      try omega
  | @refuse i before =>
      rcases before with ⟨_, _, _, _, phase⟩ | ⟨_, _, _, _, phase⟩
      · refine lowers_task few (by rw [phase]; simp) (fun j other => Function.update_of_ne other ..) rfl rfl ?_
        rw [phase]
        simp [Task.ahead]
      · refine lowers_task few (by rw [phase]; simp) (fun j other => Function.update_of_ne other ..) rfl rfl ?_
        rw [phase]
        simp [Task.ahead]
  | unlink phase | clear phase | sendCreate phase | sendDelete phase | finishCreate phase | finishDelete phase =>
      refine lowers_other rfl ?_
      simp [phase, Topology.ahead, Topology.behind, Topology.queued]
  | abandon failing =>
      refine lowers_other rfl ?_
      rcases failing with ⟨_, ⟨_, _, _, _, _, phase⟩ | ⟨_, phase⟩⟩ | ⟨_, _, phase⟩ <;>
        simp [phase, Topology.ahead, Topology.behind, Topology.queued]
  | @lookSnapshot _ rid _ phase =>
      refine lowers_other rfl (.inr ⟨by rw [phase]; rfl, ?_⟩)
      have found : (t.memory.lookUp rid).toList.length ≤ 1 := Option.length_toList_le
      simp only [phase, Compacting.behind, List.length_cons]
      omega
  | enterWindow phase | allListed phase | snapshot phase | submit phase | finishCompaction phase =>
      refine lowers_other rfl ?_
      simp [phase, Compacting.ahead, Compacting.behind]
  | list phase more =>
      refine lowers_other rfl ?_
      simp only [phase, Compacting.ahead, Compacting.behind]
      omega
  | flush _ took | handle _ took => exact lowers_other rfl (.inr ⟨rfl, Nat.add_lt_add_left took.shortens _⟩)

end Work

/-! ## Nobody is stuck -/

/-- Whether a handle has a resource behind it, now and when it leaves the table. -/
def Lasts (m : Memory) (h : Handle) : Prop := (m.read h).isSome ∧ h.2 ≤ m.removed h.1

theorem Lasts.took {h : Handle} (kept : Lasts t.memory h) (routed : t.Routed) (took : t.Took shards a t') :
    Lasts t'.memory h := by
  obtain ⟨present, known⟩ := kept
  cases took with
  | @apply i _ _ h' change _ phase =>
      have pending : (h', change) ∈ (t.tasks i).pending := by
        rw [phase]
        exact List.mem_cons_self
      refine ⟨?_, by rw [Memory.apply_removed]; exact known⟩
      rw [Memory.apply_read (routed i _ pending)]
      split
      · next same =>
          subst same
          rw [Option.isSome_map]
          exact present
      · exact present
  | unlink => exact ⟨(Memory.unlink_read ..).symm ▸ present, known⟩
  | finishCreate =>
      refine ⟨?_, known⟩
      rw [Memory.create_read]
      split
      · rfl
      · exact present
  | @finishDelete id =>
      obtain ⟨r, n⟩ := h
      simp only [Lasts, Memory.read, Memory.remove, InMemoryStore.removeResource_getResource, Memory.current,
        Function.update_apply, Prod.mk.injEq] at present known ⊢
      by_cases same : r = id
      · subst same
        by_cases now : n = t.memory.removed r
        · subst now
          simpa using present
        · have before : n ≠ t.memory.removed r + 1 := by omega
          simp only [↓reduceIte, now, before, and_false] at present ⊢
          exact ⟨present, by omega⟩
      · simp only [same, ↓reduceIte, false_and] at present ⊢
        exact ⟨present, known⟩
  | _ => exact ⟨present, known⟩

/-- Whoever has locked a resource knows. -/
def Owned (t : Tenant) : Prop := ∀ h i, t.lockedBy h = some i → h ∈ (t.tasks i).held

/-- Every request takes its locks in ascending order. -/
def Climbs (t : Tenant) : Prop := ∀ i, (t.tasks i).route.Pairwise (· < ·)

/-- Whoever waits for an answer has a command queued. -/
def Answered (t : Tenant) : Prop :=
  ∀ s, t.awaits s = true → t.writer.outcomes s = none → s ∈ t.writer.queue.map WalCommand.sender

/-- A resource that is deleted is in the table until then. -/
def Deletes (t : Tenant) : Prop :=
  ∀ id stage, t.topology = .deleting id stage → (t.memory.store.getResource id).isSome

/-- A resource that a compaction is about to copy is there. -/
def Copies (t : Tenant) : Prop :=
  ∀ snapshots h rest, t.compaction = .snapshotting snapshots (some h) rest → Lasts t.memory h

/-- A compaction goes through the shards there are. -/
def Lists (shards : Shards) (t : Tenant) : Prop := ∀ visited ids, t.compaction = .listing visited ids → visited ≤ shards.count

/-- What keeps a tenant from getting stuck. -/
structure Flowing (shards : Shards) (t : Tenant) : Prop where
  locks : t.Locks
  queued : t.Queued
  routed : t.Routed
  owned : t.Owned
  climbs : t.Climbs
  answered : t.Answered
  deletes : t.Deletes
  copies : t.Copies
  lists : t.Lists shards

theorem on_flowing (e : Engine) : (on e).Flowing shards where
  locks := on_locks e
  queued := on_queued e
  routed _ _ inside := (List.not_mem_nil inside).elim
  owned _ _ same := by cases same
  climbs _ := List.Pairwise.nil
  answered s waits := by cases s <;> cases waits
  deletes _ _ same := by cases same
  copies _ _ _ same := by cases same
  lists _ _ same := by cases same

/-! ### Locks -/

theorem Owned.keep (owned : t.Owned) {i : TaskId} {task : Task} (tasks : t'.tasks = Function.update t.tasks i task)
    (lockedBy : t'.lockedBy = t.lockedBy) (held : task.held = (t.tasks i).held) : t'.Owned := by
  intro h j locked
  have before := owned h j (lockedBy ▸ locked)
  rw [tasks, Function.update_apply]
  split
  · next own => rw [held, ← own]; exact before
  · exact before

theorem Owned.drop (owned : t.Owned) {i : TaskId} {task : Task} {held : List Handle} (phase : (t.tasks i).held = held) :
    ((t.setTask i task).unlock held).Owned := by
  intro h j locked
  simp only [unlock, setTask] at locked
  split at locked
  · cases locked
  · next still =>
      have before := owned h j locked
      rw [unlock_tasks, setTask_tasks]
      split
      · next own =>
          subst own
          exact absurd (phase ▸ before) still
      · exact before

theorem Owned.took (owned : t.Owned) (took : t.Took shards a t') : t'.Owned := by
  cases took with
  | @lock i _ _ held h' _ phase =>
      intro h j locked
      simp only [Function.update_apply] at locked
      simp only [setTask_tasks]
      split at locked
      · next same =>
          cases locked
          rw [if_pos rfl, same]
          exact List.mem_append_right _ (List.mem_singleton_self _)
      · have before := owned h j locked
        split
        · next own =>
            rw [own, phase] at before
            exact List.mem_append_left _ before
        · exact before
  | start phase | lookUp phase | allLocked phase | claim phase | check phase | send phase | apply phase
  | answer phase => exact owned.keep rfl rfl (by rw [phase]; rfl)
  | release phase | fail phase => exact owned.drop (by rw [phase]; rfl)
  | refuse => exact owned.drop rfl
  | _ => exact owned

theorem ascending_climbs (ids : List Ulid) : (Engine.ascending ids).Pairwise (· < ·) := by
  have sorted : (Engine.ascending ids).Pairwise (· ≤ ·) := List.pairwise_insertionSort _ _
  exact (sorted.and (Engine.ascending_nodup ids)).imp fun both => lt_of_le_of_ne both.1 both.2

theorem Climbs.took (climbs : t.Climbs) (took : t.Took shards a t') : t'.Climbs := by
  intro j
  by_cases own : a.task = some j
  · have before := climbs j
    cases took with
    | start => cases own; simpa [Task.route] using ascending_climbs _
    | lookUp phase | lock phase => cases own; simpa [phase, Task.route, Memory.current] using before
    | allLocked | claim | check | send | apply | release | fail | answer | refuse => cases own; simp [Task.route]
    | _ => cases own
  · rw [took.tasks_other own]
    exact climbs j

/-! ### Answers -/

/-- Who waits for an answer did so before, or has just queued a command. -/
theorem Took.waited (took : t.Took shards a t') {s : Sender} (waits : t'.awaits s = true) :
    t.awaits s = true ∨ ∃ command, t'.writer = t.writer.push command ∧ command.sender = s := by
  cases s with
  | request j =>
      by_cases own : a.task = some j
      · cases took with
        | send =>
            cases own
            exact .inr ⟨_, rfl, by simp⟩
        | apply phase | release phase => cases own; exact .inl (by simp [Tenant.awaits, phase, Task.queued])
        | start | lookUp | lock | allLocked | claim | check | fail | answer | refuse =>
            cases own
            simp [Tenant.awaits, Task.queued] at waits
        | _ => cases own
      · exact .inl (by simpa only [Tenant.awaits, took.tasks_other own] using waits)
  | topology =>
      cases took with
      | sendCreate | sendDelete => exact .inr ⟨_, rfl, rfl⟩
      | create | delete | unlink | clear | finishCreate | finishDelete | abandon => cases waits
      | _ => exact .inl waits
  | compaction =>
      cases took with
      | beginCompaction | submit => exact .inr ⟨_, rfl, rfl⟩
      | enterWindow | list | allListed | lookSnapshot | snapshot | finishCompaction => cases waits
      | _ => exact .inl waits

theorem Answered.took (answered : t.Answered) (took : t.Took shards a t') : t'.Answered := by
  intro s waits unanswered
  rcases took.waited waits with before | ⟨command, pushed, rfl⟩
  · rcases took.writer with same | ⟨command, pushed⟩ | worked
    · rw [same] at unanswered ⊢
      exact answered s before unanswered
    · rw [pushed] at unanswered ⊢
      simp only [LogWriter.push, Function.update_apply, List.map_append] at unanswered ⊢
      split at unanswered
      · next same => exact List.mem_append_right _ (by simp [same])
      · exact List.mem_append_left _ (answered s before unanswered)
    · obtain ⟨n, ok, queue, outcomes, -⟩ := worked.answers
      rw [outcomes, LogWriter.answer_outcomes] at unanswered
      split at unanswered
      · cases unanswered
      · next kept =>
          have queued := answered s before unanswered
          rw [← List.take_append_drop n t.writer.queue, List.map_append] at queued
          rw [queue]
          exact (List.mem_append.mp queued).resolve_left kept
  · rw [pushed]
    simp [LogWriter.push]

/-! ### The tree and the copies -/

theorem Deletes.took (deletes : t.Deletes) (routed : t.Routed) (took : t.Took shards a t') : t'.Deletes := by
  intro id stage same
  cases took with
  | @delete _ rs _ checked =>
      cases same
      rw [show t.memory.store.getResource id = some rs from (Engine.checkDelete_ok checked).1]
      rfl
  | @apply i _ _ h change _ phase =>
      have pending : (h, change) ∈ (t.tasks i).pending := by
        rw [phase]
        exact List.mem_cons_self
      rw [Memory.apply_present (routed i _ pending)]
      exact deletes id stage same
  | unlink phase =>
      cases same
      rw [InMemoryStore.unlink_getResource]
      exact deletes _ _ phase
  | clear phase | sendDelete phase =>
      cases same
      exact deletes _ _ phase
  | create | sendCreate | finishCreate | finishDelete | abandon => cases same
  | _ => exact deletes id stage same

theorem Copies.took (copies : t.Copies) (routed : t.Routed) (took : t.Took shards a t') : t'.Copies := by
  intro snapshots h rest same
  by_cases before : t.compaction = .snapshotting snapshots (some h) rest
  · exact (copies snapshots h rest before).took routed took
  · cases took with
    | @lookSnapshot _ rid _ phase =>
        obtain ⟨_, found, _⟩ := Compacting.snapshotting.inj same
        unfold Memory.lookUp at found
        split at found
        · next present =>
            cases found
            exact ⟨(Memory.read_current ..).symm ▸ present, Nat.le_refl _⟩
        · cases found
    | allListed | snapshot | beginCompaction | enterWindow | list | submit | finishCompaction => cases same
    | _ => exact absurd same before

theorem Lists.took (lists : t.Lists shards) (took : t.Took shards a t') : t'.Lists shards := by
  intro visited ids same
  cases took with
  | list _ more => cases same; exact more
  | enterWindow => cases same; exact Nat.zero_le _
  | allListed | lookSnapshot | snapshot | beginCompaction | submit | finishCompaction => cases same
  | _ => exact lists visited ids same

theorem Flowing.took (flowing : t.Flowing shards) (took : t.Took shards a t') : t'.Flowing shards where
  locks := flowing.locks.took took
  queued := flowing.queued.took took
  routed := flowing.routed.took took
  owned := flowing.owned.took took
  climbs := flowing.climbs.took took
  answered := flowing.answered.took took
  deletes := flowing.deletes.took flowing.routed took
  copies := flowing.copies.took flowing.routed took
  lists := flowing.lists.took took

/-! ### Someone can move -/

/-- Whether what has begun can go on. -/
def CanMove (shards : Shards) (t : Tenant) : Prop :=
  ∃ a, a.finishes = true ∧ t.Faultless a ∧ (t.step shards a).isSome

/-- The log writer takes on whatever is queued. -/
theorem queue_moves (busy : t.writer.queue ≠ []) : t.CanMove shards := by
  obtain ⟨command, rest, queue⟩ := List.exists_cons_of_ne_nil busy
  cases command with
  | append | appendAtomic =>
      have one : WalCommand.oneFlush (t.writer.queue.take 1) := by rw [queue]; rfl
      cases running : t.writer.failed with
      | false => exact ⟨.flush 1 true, rfl, .inl rfl, by simp [step, LogWriter.flush, one, running]⟩
      | true => exact ⟨.flush 1 false, rfl, .inr running, by simp [step, LogWriter.flush, one]⟩
  | compactBegin => exact ⟨.handle none, rfl, rfl, by simp [step, LogWriter.handle, queue]⟩
  | compact events =>
      have possible : (t.writer.handle none).isSome := by
        simp only [LogWriter.handle, queue]
        split <;> rfl
      exact ⟨.handle none, rfl, rfl, by simp [step, possible]⟩

theorem Flowing.unanswered_moves (flowing : t.Flowing shards) {s : Sender} (waits : t.awaits s = true)
    (unanswered : t.writer.outcomes s = none) : t.CanMove shards := by
  apply queue_moves
  intro empty
  have inside := flowing.answered s waits unanswered
  rw [empty] at inside
  cases inside

/-- A request that looks its next resource up finds it or not. -/
theorem looking_moves {i : TaskId} {request : Request.Prepared} {targets : List Ulid} {held : List Handle}
    {rest : List Ulid} (phase : t.tasks i = .locking request targets held none rest) : t.CanMove shards := by
  cases rest with
  | nil => exact ⟨.allLocked i, rfl, trivial, by simp [step, allLocked, phase]⟩
  | cons rid rest =>
      cases present : t.memory.store.containsResource rid with
      | true => exact ⟨.lookUp i, rfl, trivial, by simp [step, lookUp, Memory.lookUp, phase, present]⟩
      | false => exact ⟨.refuse i, rfl, .gone phase present, by simp [step, refuse, phase]⟩

/-- The checks of a request that has its locks pass or not. -/
theorem claiming_moves {i : TaskId} {request : Request.Prepared} {targets : List Ulid} {held : List Handle}
    {claimed unclaimed : List Ulid} (phase : t.tasks i = .claiming request targets held claimed unclaimed) :
    t.CanMove shards := by
  cases unclaimed with
  | cons x rest =>
      by_cases free : t.memory.store.getResourceForEntity x = none
      · exact ⟨.claim i, rfl, trivial, by simp [step, claim, phase, free]⟩
      · exact ⟨.refuse i, rfl, .taken phase free, by simp [step, refuse, phase]⟩
  | nil =>
      cases running : t.writer.failed with
      | true => exact ⟨.refuse i, rfl, .stopped phase running, by simp [step, refuse, phase]⟩
      | false =>
          cases checked : request.1.admitRecords t.engine (t.guard held) noRules targets with
          | error error => exact ⟨.refuse i, rfl, .rejected phase checked, by simp [step, refuse, phase]⟩
          | ok records =>
              have checkedNow : request.1.admitRecords { t.engine with clock := t.clock } (t.guard held) noRules targets =
                .ok records := checked
              exact ⟨.check i t.clock noRules, rfl, trivial, by simp [step, check, phase, running, checkedNow]⟩

/-- A request is over, can go on, or waits for a lock that somebody has. -/
theorem Flowing.task_moves (flowing : t.Flowing shards) (i : TaskId) :
    (t.tasks i = .idle ∨ ∃ ok, t.tasks i = .answered ok) ∨ t.CanMove shards ∨
      ∃ h k, (t.tasks i).wanted = some h ∧ t.lockedBy h = some k := by
  cases phase : t.tasks i with
  | idle => exact .inl (.inl rfl)
  | answered ok => exact .inl (.inr ⟨ok, rfl⟩)
  | locking request targets held found rest =>
      right
      cases found with
      | some h =>
          cases owner : t.lockedBy h with
          | some k => exact .inr ⟨h, k, rfl, owner⟩
          | none => exact .inl ⟨.lock i, rfl, trivial, by simp [step, lock, phase, owner]⟩
      | none => exact .inl (looking_moves phase)
  | claiming request targets held claimed unclaimed => exact .inr (.inl (claiming_moves phase))
  | sending request held records => exact .inr (.inl ⟨.send i, rfl, trivial, by simp [step, send, phase]⟩)
  | sent request held pending =>
      right
      left
      by_cases may : t.mayApply i request
      · cases pending with
        | nil => exact ⟨.release i, rfl, trivial, by simp [step, release, phase, may]⟩
        | cons change rest => exact ⟨.apply i, rfl, trivial, by simp [step, Tenant.apply, phase, may]⟩
      · simp only [mayApply, Bool.or_eq_true, not_or, Bool.not_eq_true, decide_eq_true_eq] at may
        cases outcome : t.writer.outcomes (.request i) with
        | none => exact flowing.unanswered_moves (by simp [awaits, phase, Task.queued]) outcome
        | some ok =>
            cases ok with
            | true => exact absurd outcome may.2
            | false => exact ⟨.fail i, rfl, trivial, by simp [step, fail, phase, may.1, outcome]⟩
  | waiting request =>
      right
      left
      cases outcome : t.writer.outcomes (.request i) with
      | none => exact flowing.unanswered_moves (by simp [awaits, phase, Task.queued]) outcome
      | some ok => exact ⟨.answer i, rfl, trivial, by simp [step, answer, phase, outcome]⟩

/-- Who has a lock that a request waits for waits for none that comes before it. -/
theorem Flowing.above (flowing : t.Flowing shards) {h h' : Handle} {j : TaskId} (locked : t.lockedBy h = some j)
    (waits : (t.tasks j).wanted = some h') : h.1 < h'.1 := by
  have held := flowing.owned h j locked
  have climbs := flowing.climbs j
  cases phase : t.tasks j with
  | locking request targets mine found rest =>
      rw [phase] at held climbs waits
      simp only [Task.wanted] at waits
      subst waits
      simp only [Task.route] at climbs
      have apart := (List.pairwise_append.mp climbs).1
      exact (List.pairwise_append.mp apart).2.2 h.1 (List.mem_map_of_mem held) h'.1 (by simp)
  | _ => rw [phase] at waits; cases waits

/-- When nobody can move every request is over. -/
theorem Flowing.requests_over (flowing : t.Flowing shards) {n : Nat} (few : t.Few n) (stuck : ¬ t.CanMove shards) (i : TaskId) :
    t.tasks i = .idle ∨ ∃ ok, t.tasks i = .answered ok := by
  have waits : ∀ i, (t.tasks i = .idle ∨ ∃ ok, t.tasks i = .answered ok) ∨
      ∃ h k, (t.tasks i).wanted = some h ∧ t.lockedBy h = some k :=
    fun i => (flowing.task_moves i).imp_right fun rest => rest.resolve_left stuck
  have nobody : ¬ (t.tasks i).wanted.isSome := by
    -- Whoever waits the furthest up waits for somebody who waits further up still.
    apply nobody_waits (fun i => (t.tasks i).wanted.isSome) (fun i => (t.tasks i).wanted.elim 0 (·.1)) n
    · intro j waiting
      apply few
      intro idle
      rw [idle] at waiting
      cases waiting
    · intro j waiting
      obtain ⟨h, wanted⟩ := Option.isSome_iff_exists.mp waiting
      rcases waits j with (idle | ⟨_, done⟩) | ⟨_, k, wanted', owner⟩
      · rw [idle] at wanted; cases wanted
      · rw [done] at wanted; cases wanted
      · cases wanted.symm.trans wanted'
        have held := flowing.owned h k owner
        rcases waits k with (idle | ⟨_, done⟩) | ⟨h', _, next, _⟩
        · rw [idle] at held; cases held
        · rw [done] at held; cases held
        · refine ⟨k, by rw [next]; rfl, ?_⟩
          rw [wanted, next]
          exact flowing.above owner next
  refine (waits i).resolve_right fun waiting => ?_
  obtain ⟨h, k, wanted, owner⟩ := waiting
  exact nobody (by rw [wanted]; rfl)

theorem Flowing.topology_moves (flowing : t.Flowing shards) (unlocked : ∀ h, t.lockedBy h = none)
    (busy : t.topology ≠ .idle) : t.CanMove shards := by
  cases phase : t.topology with
  | idle => exact absurd phase busy
  | creating id parentId name capacity bufferAfter sent =>
      cases sent with
      | false => exact ⟨.sendTopology, rfl, trivial, by simp [step, sendTopology, phase]⟩
      | true =>
          cases outcome : t.writer.outcomes .topology with
          | none => exact flowing.unanswered_moves (by simp [awaits, phase, Topology.queued]) outcome
          | some ok =>
              cases ok with
              | true => exact ⟨.finishTopology, rfl, trivial, by simp [step, finishTopology, phase, outcome]⟩
              | false => exact ⟨.abandonTopology, rfl, trivial, by simp [step, abandonTopology, phase, outcome]⟩
  | deleting id stage =>
      cases stage with
      | found =>
          obtain ⟨rs, present⟩ := Option.isSome_iff_exists.mp (flowing.deletes id .found phase)
          exact ⟨.unlink, rfl, trivial, by simp [step, unlink, phase, unlocked, present]⟩
      | unlinked =>
          cases running : t.writer.failed with
          | false => exact ⟨.clear, rfl, trivial, by simp [step, clear, phase, running]⟩
          | true => exact ⟨.abandonTopology, rfl, trivial, by simp [step, abandonTopology, phase, running]⟩
      | cleared => exact ⟨.sendTopology, rfl, trivial, by simp [step, sendTopology, phase]⟩
      | sent =>
          cases outcome : t.writer.outcomes .topology with
          | none => exact flowing.unanswered_moves (by simp [awaits, phase, Topology.queued]) outcome
          | some ok =>
              cases ok with
              | true => exact ⟨.finishTopology, rfl, trivial, by simp [step, finishTopology, phase, outcome]⟩
              | false => exact ⟨.abandonTopology, rfl, trivial, by simp [step, abandonTopology, phase, outcome]⟩

theorem Flowing.compaction_moves (flowing : t.Flowing shards) (unlocked : ∀ h, t.lockedBy h = none)
    (busy : t.compaction ≠ .idle) : t.CanMove shards := by
  cases phase : t.compaction with
  | idle => exact absurd phase busy
  | beginning =>
      cases outcome : t.writer.outcomes .compaction with
      | none => exact flowing.unanswered_moves (by simp [awaits, phase, Compacting.queued]) outcome
      | some ok => exact ⟨.enterWindow, rfl, trivial, by simp [step, enterWindow, phase, outcome]⟩
  | listing visited ids =>
      rcases (flowing.lists visited ids phase).lt_or_eq with more | all
      · refine ⟨.list (t.memory.store.resourceIds.filter fun r => (shards.of r).val = visited), rfl, trivial, ?_⟩
        simp [step, list, phase, more]
      · exact ⟨.allListed, rfl, trivial, by simp [step, allListed, phase, all]⟩
  | snapshotting snapshots found rest =>
      cases found with
      | some h =>
          obtain ⟨rs, present⟩ := Option.isSome_iff_exists.mp (flowing.copies snapshots h rest phase).1
          exact ⟨.snapshot, rfl, trivial, by simp [step, snapshot, phase, unlocked, present]⟩
      | none =>
          cases rest with
          | nil => exact ⟨.submit, rfl, trivial, by simp [step, submit, phase]⟩
          | cons rid rest => exact ⟨.lookSnapshot, rfl, trivial, by simp [step, lookSnapshot, phase]⟩
  | submitted =>
      cases outcome : t.writer.outcomes .compaction with
      | none => exact flowing.unanswered_moves (by simp [awaits, phase, Compacting.queued]) outcome
      | some ok => exact ⟨.finishCompaction, rfl, trivial, by simp [step, finishCompaction, phase, outcome]⟩

/-- What cannot go on is over. -/
theorem Flowing.rests (flowing : t.Flowing shards) {n : Nat} (few : t.Few n) (stuck : ¬ t.CanMove shards) : t.AtRest := by
  have done := flowing.requests_over few stuck
  have unlocked : ∀ h, t.lockedBy h = none := by
    intro h
    cases owner : t.lockedBy h with
    | none => rfl
    | some i =>
        have held := flowing.owned h i owner
        rcases done i with idle | ⟨_, answered⟩
        · rw [idle] at held; cases held
        · rw [answered] at held; cases held
  exact ⟨done, unlocked, by_contra fun busy => stuck (queue_moves busy),
    by_contra fun busy => stuck (flowing.topology_moves unlocked busy),
    by_contra fun busy => stuck (flowing.compaction_moves unlocked busy)⟩

theorem winding_works (shards : Shards) (n : Nat) :
    Works (step shards) (fun _ a => a.finishes = true) (Few n) (left shards n) where
  keeps _ _ _ few finishes taken := few.took (Tenant.took taken) finishes
  lowers _ _ _ few finishes taken := (Tenant.took taken).lowers few finishes

/-- When nothing new begins a tenant winds down: no run goes on forever, and as long as anything is
    under way, no request has to give up and no flush has to fail for something to go on. -/
theorem winds_down {e : Engine} (reached : Reaches (step shards) (fun _ _ => True) (on e) t) :
    ¬ Endless (step shards) (fun _ a => a.finishes = true) t ∧ (t.AtRest ∨ t.CanMove shards) := by
  have flowing : t.Flowing shards := reached.invariant (on_flowing e) fun t a t' inv _ taken => inv.took (Tenant.took taken)
  have begun : ∃ n, t.Few n := by
    apply reached.invariant (I := fun t => ∃ n, t.Few n)
    · exact ⟨0, fun i busy => absurd rfl busy⟩
    · intro s a s' few _ taken
      obtain ⟨n, few⟩ := few
      exact (Tenant.took taken).few few
  obtain ⟨n, few⟩ := begun
  refine ⟨(winding_works shards n).not_endless few, ?_⟩
  by_cases moves : t.CanMove shards
  · exact .inr moves
  · exact .inl (flowing.rests few moves)

/-- Two holds of one room, and a compaction that is about to copy it. -/
def crowding : List Action :=
  opening 1 ++ reaching 0 (.placeHold 7 1 ⟨⟨10, 20⟩, slot_valid⟩ 100) ++
    [.start 1 (.placeHold 8 1 ⟨⟨10, 20⟩, slot_valid⟩ 100), .lookUp 1, .beginCompaction, .handle none, .enterWindow,
      .list [1], .allListed, .lookSnapshot]

/-- The second hold waits for the lock of the first, as does the compaction, and they get through. -/
theorem crowd_winds_down : ∃ t, Reaches (step oneShard) (fun _ _ => True) (on (.start 0 1000)) t ∧
    (t.tasks 1).wanted = some (1, 0) ∧ t.lockedBy (1, 0) = some 0 ∧
    ¬ Endless (step oneShard) (fun _ a => a.finishes = true) t ∧ t.CanMove oneShard := by
  have possible : (Machine.run (step oneShard) crowding (on (.start 0 1000))).map (fun t =>
      ((t.tasks 1).wanted, t.lockedBy (1, 0))) = some (some (1, 0), some 0) := by decide +kernel
  obtain ⟨t, ran, waits⟩ := Option.map_eq_some_iff.mp possible
  have reached : Reaches (step oneShard) (fun _ _ => True) (on (.start 0 1000)) t :=
    Machine.reaches_of_run (fun _ _ _ => trivial) ran
  obtain ⟨wanted, owner⟩ := Prod.mk.inj waits
  obtain ⟨never, rests⟩ := winds_down reached
  refine ⟨t, reached, wanted, owner, never, rests.resolve_left fun rest => ?_⟩
  cases owner.symm.trans (rest.unlocked (1, 0))

end Tenant

end Deltat
