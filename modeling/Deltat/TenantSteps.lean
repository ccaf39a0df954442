import Deltat.Lib.Machine
import Deltat.Replay
import Deltat.Tenant

/-! # What a step of a tenant can do

Each action with everything that makes it possible, and what every step leaves alone.
-/

namespace Deltat

open Lib Limits

/-! ## Memory -/

namespace Memory

variable {m : Memory} {h h' : Handle} {change : Event}

theorem apply_removed (m : Memory) (h : Handle) (change : Event) : (m.apply h change).removed = m.removed := by
  unfold apply
  split
  · rfl
  · cases m.orphans h <;> rfl

/-- A change of one resource changes what is behind its handle. -/
theorem apply_read (routed : change.resourceId? = some h.1) : (m.apply h change).read h' =
    if h' = h then (m.read h).map (·.applySingle change) else m.read h' := by
  obtain ⟨r, n⟩ := h
  obtain ⟨r', n'⟩ := h'
  simp only at routed
  by_cases current : n = m.removed r
  · have applied : m.apply (r, n) change = { m with store := m.store.replayOn r change } := if_pos current
    have behind : m.read (r, n) = m.store.getResource r := if_pos current
    rw [applied, behind]
    simp only [read, InMemoryStore.replayOn_getResource, InMemoryStore.ownPart_single routed, List.foldl_cons,
      List.foldl_nil, Prod.mk.injEq]
    by_cases same : r' = r
    · subst same
      by_cases now : n' = m.removed r'
      · simp [now, current]
      · simp [now, current]
    · simp [same]
  · have behind : m.read (r, n) = m.orphans (r, n) := if_neg current
    rw [behind]
    unfold apply
    rw [if_neg current]
    cases orphan : m.orphans (r, n) with
    | none =>
        by_cases same : (r', n') = (r, n)
        · cases same
          simp [behind, orphan]
        · simp [same]
    | some rs =>
        have resources : (m.store.applyEvent rs change).1.getResource r' = m.store.getResource r' := by
          simp only [InMemoryStore.applyEvent, InMemoryStore.ownPart_single routed, List.foldl_cons, List.foldl_nil,
            InMemoryStore.getResource, (InMemoryStore.indexSingle_resources m.store change).1]
        have effect : (m.store.applyEvent rs change).2 = rs.applySingle change := by
          simp only [InMemoryStore.applyEvent, InMemoryStore.ownPart_single routed, List.foldl_cons, List.foldl_nil]
        simp only [read, resources, effect, Function.update_apply, Option.map_some]
        by_cases same : (r', n') = (r, n)
        · cases same
          simp [current]
        · simp [same]

theorem read_current (m : Memory) (r : Ulid) : m.read (m.current r) = m.store.getResource r := if_pos rfl

/-- The same for the table. -/
theorem apply_getResource (routed : change.resourceId? = some h.1) (r : Ulid) :
    (m.apply h change).store.getResource r =
      if m.current r = h then (m.store.getResource r).map (·.applySingle change) else m.store.getResource r := by
  have current : (m.apply h change).current r = m.current r := by simp only [current, apply_removed]
  rw [← read_current, current, apply_read routed, read_current]
  split
  · next same => rw [← same, read_current]
  · rfl

/-- Changes make no resource come or go. -/
theorem apply_present (routed : change.resourceId? = some h.1) (r : Ulid) :
    ((m.apply h change).store.getResource r).isSome = (m.store.getResource r).isSome := by
  rw [apply_getResource routed]
  split
  · rw [Option.isSome_map]
  · rfl

theorem unlink_read (m : Memory) (rs : ResourceState) (id : Ulid) (h : Handle) :
    ({ m with store := m.store.unlink rs id } : Memory).read h = m.read h := by
  simp only [read, InMemoryStore.unlink_getResource]

theorem create_read (m : Memory) (id : Ulid) (parentId : Option Ulid) (name : Option String) (capacity : UInt32)
    (bufferAfter : Option Ms) (h : Handle) :
    ({ m with store := m.store.create id parentId name capacity bufferAfter } : Memory).read h =
      if h = m.current id then some (.new id parentId name capacity bufferAfter) else m.read h := by
  obtain ⟨r, n⟩ := h
  simp only [read, InMemoryStore.create_getResource, current, Prod.mk.injEq]
  by_cases same : r = id
  · subst same
    by_cases now : n = m.removed r <;> simp [now]
  · simp [same]

/-- Removing a resource from the table takes it from nobody who keeps it. -/
theorem remove_read {rs : ResourceState} {r : Ulid} (found : (m.remove r).read h = some rs) : m.read h = some rs := by
  obtain ⟨r', n⟩ := h
  simp only [read, remove, InMemoryStore.removeResource_getResource, current, Function.update_apply,
    Prod.mk.injEq] at found ⊢
  by_cases same : r' = r
  · subst same
    by_cases now : n = m.removed r'
    · subst now
      simpa using found
    · simp only [↓reduceIte, now, and_false] at found ⊢
      split at found
      · cases found
      · exact found
  · simpa [same] using found

end Memory

@[simp] theorem WalCommand.write_records (sender : Sender) (records : List Event) :
    (write sender records).records = records := by
  unfold write
  split <;> rfl

/-- What the log writer can do, with what makes it possible. -/
inductive LogWriter.Took (w : LogWriter) : LogWriter → Prop where
  | flushed (n : Nat) (one : WalCommand.oneFlush (w.queue.take n)) (running : w.failed = false) :
      Took w { w.answer n true with
        file := if w.attached then w.file ++ (w.queue.take n).flatMap WalCommand.records else w.file
        recording := w.recording.map (· ++ (w.queue.take n).flatMap WalCommand.records)
        flushed := w.flushed ++ (w.queue.take n).flatMap WalCommand.records }
  | refused (n : Nat) (one : WalCommand.oneFlush (w.queue.take n)) : Took w { w.answer n false with failed := true }
  | began {rest : List WalCommand} (head : w.queue = .compactBegin :: rest) :
      Took w { w.answer 1 true with recording := some [] }
  | stopped {events : List Event} {rest : List WalCommand} (head : w.queue = .compact events :: rest)
      (stopped : w.failed = true) : Took w { w.answer 1 false with recording := none }
  | compacted {events : List Event} {rest : List WalCommand} (head : w.queue = .compact events :: rest)
      (running : w.failed = false) : Took w { w.answer 1 true with
        file := Compaction.mergeRecorded events (w.recording.getD []), attached := true, recording := none }
  | swapped {events : List Event} {rest : List WalCommand} (head : w.queue = .compact events :: rest)
      (running : w.failed = false) : Took w { w.answer 1 false with
        file := Compaction.mergeRecorded events (w.recording.getD []), attached := false, recording := none }
  | kept {events : List Event} {rest : List WalCommand} (head : w.queue = .compact events :: rest)
      (running : w.failed = false) : Took w { w.answer 1 false with recording := none }

namespace LogWriter

variable {w w' : LogWriter}

theorem took_flush {n : Nat} {ok : Bool} (taken : w.flush n ok = some w') : w.Took w' := by
  unfold flush at taken
  simp only at taken
  split at taken
  · next one =>
      split at taken
      · cases taken
      · next running => cases taken; exact .flushed n one running
      · cases taken; exact .refused n one
  · cases taken

theorem took_handle {fault : Option CompactFault} (taken : w.handle fault = some w') : w.Took w' := by
  unfold handle at taken
  split at taken
  · next head => cases taken; exact .began head
  · next head =>
      simp only at taken
      split at taken
      · next stopped => cases taken; exact .stopped head stopped
      · next running =>
          simp only [Bool.not_eq_true] at running
          split at taken
          · cases taken; exact .compacted head running
          · split at taken
            · cases taken; exact .swapped head running
            · cases taken; exact .kept head running
  · cases taken

end LogWriter

namespace Tenant

/-- A step with everything that makes it possible. -/
inductive Took (shards : Shards) (t : Tenant) : Action → Tenant → Prop where
  | tick (ms : Nat) : Took shards t (.tick ms) { t with clock := t.clock + ms }
  | start {i : TaskId} {given : Request} {request : Request.Prepared} {targets : List Ulid}
      (phase : t.tasks i = .idle) (prepared : given.prepared t.engine = .ok request)
      (located : given.targets t.engine = .ok targets) :
      Took shards t (.start i given)
        (t.setTask i (.locking request targets [] none (Engine.ascending targets)))
  | lookUp {i : TaskId} {request : Request.Prepared} {targets : List Ulid} {held : List Handle} {rid : Ulid}
      {rest : List Ulid} (phase : t.tasks i = .locking request targets held none (rid :: rest))
      (present : t.memory.store.containsResource rid) :
      Took shards t (.lookUp i) (t.setTask i (.locking request targets held (some (t.memory.current rid)) rest))
  | lock {i : TaskId} {request : Request.Prepared} {targets : List Ulid} {held : List Handle} {h : Handle}
      {rest : List Ulid} (phase : t.tasks i = .locking request targets held (some h) rest)
      (free : t.lockedBy h = none) :
      Took shards t (.lock i) { t.setTask i (.locking request targets (held ++ [h]) none rest) with
        lockedBy := Function.update t.lockedBy h (some i) }
  | allLocked {i : TaskId} {request : Request.Prepared} {targets : List Ulid} {held : List Handle}
      (phase : t.tasks i = .locking request targets held none []) :
      Took shards t (.allLocked i) (t.setTask i (.claiming request targets held [] request.1.claims))
  | claim {i : TaskId} {request : Request.Prepared} {targets : List Ulid} {held : List Handle}
      {claimed rest : List Ulid} {x : Ulid} (phase : t.tasks i = .claiming request targets held claimed (x :: rest))
      (free : t.memory.store.getResourceForEntity x = none) :
      Took shards t (.claim i) (t.setTask i (.claiming request targets held (claimed ++ [x]) rest))
  | check {i : TaskId} {now : Ms} {rules : Ulid → InheritedRules} {request : Request.Prepared}
      {targets : List Ulid} {held : List Handle} {claimed : List Ulid} {records : List Event}
      (phase : t.tasks i = .claiming request targets held claimed []) (running : t.writer.failed = false)
      (admitted : request.1.admitRecords { t.engine with clock := now } (t.guard held) rules targets = .ok records) :
      Took shards t (.check i now rules) (t.setTask i (.sending request held records))
  | send {i : TaskId} {request : Request.Prepared} {held : List Handle} {records : List Event}
      (phase : t.tasks i = .sending request held records) :
      Took shards t (.send i) { t.setTask i (.sent request held (pendingOn held records)) with
        writer := t.writer.push (.write (.request i) records) }
  | apply {i : TaskId} {request : Request.Prepared} {held : List Handle} {h : Handle} {change : Event}
      {rest : List (Handle × Event)} (phase : t.tasks i = .sent request held ((h, change) :: rest))
      (may : t.mayApply i request) :
      Took shards t (.apply i) { t.setTask i (.sent request held rest) with memory := t.memory.apply h change }
  | release {i : TaskId} {request : Request.Prepared} {held : List Handle}
      (phase : t.tasks i = .sent request held []) (may : t.mayApply i request) :
      Took shards t (.release i) ((t.setTask i (.waiting request)).unlock held)
  | fail {i : TaskId} {request : Request.Prepared} {held : List Handle} {pending : List (Handle × Event)}
      (phase : t.tasks i = .sent request held pending) (late : request.1.early = false)
      (failed : t.writer.outcomes (.request i) = some false) :
      Took shards t (.fail i) ((t.setTask i (.answered false)).unlock held)
  | answer {i : TaskId} {request : Request.Prepared} {ok : Bool} (phase : t.tasks i = .waiting request)
      (outcome : t.writer.outcomes (.request i) = some ok) :
      Took shards t (.answer i) (t.setTask i (.answered ok))
  | refuse {i : TaskId} (before : (∃ request targets found rest,
        t.tasks i = .locking request targets (t.tasks i).held found rest) ∨
      ∃ request targets claimed unclaimed, t.tasks i = .claiming request targets (t.tasks i).held claimed unclaimed) :
      Took shards t (.refuse i) ((t.setTask i (.answered false)).unlock (t.tasks i).held)
  | create {id : Ulid} {parentId : Option Ulid} {name : Option String} {capacity : UInt32}
      {bufferAfter : Option Ms} (phase : t.topology = .idle) (running : t.writer.failed = false)
      (checked : t.engine.checkCreate id parentId name capacity bufferAfter = .ok ()) :
      Took shards t (.create id parentId name capacity bufferAfter)
        { t with topology := .creating id parentId name capacity bufferAfter false }
  | delete {id : Ulid} {rs : ResourceState} (phase : t.topology = .idle)
      (checked : t.engine.checkDelete id = .ok rs) :
      Took shards t (.delete id) { t with topology := .deleting id .found }
  | unlink {id : Ulid} {rs : ResourceState} (phase : t.topology = .deleting id .found)
      (free : t.lockedBy (t.memory.current id) = none) (present : t.memory.store.getResource id = some rs) :
      Took shards t .unlink { t with
        memory := { t.memory with store := t.memory.store.unlink rs id }, topology := .deleting id .unlinked }
  | clear {id : Ulid} (phase : t.topology = .deleting id .unlinked) (running : t.writer.failed = false) :
      Took shards t .clear { t with topology := .deleting id .cleared }
  | sendCreate {id : Ulid} {parentId : Option Ulid} {name : Option String} {capacity : UInt32}
      {bufferAfter : Option Ms} (phase : t.topology = .creating id parentId name capacity bufferAfter false) :
      Took shards t .sendTopology { t with
        writer := t.writer.push (.append .topology (.resourceCreated id parentId name capacity bufferAfter))
        topology := .creating id parentId name capacity bufferAfter true }
  | sendDelete {id : Ulid} (phase : t.topology = .deleting id .cleared) :
      Took shards t .sendTopology { t with
        writer := t.writer.push (.append .topology (.resourceDeleted id)), topology := .deleting id .sent }
  | finishCreate {id : Ulid} {parentId : Option Ulid} {name : Option String} {capacity : UInt32}
      {bufferAfter : Option Ms} (phase : t.topology = .creating id parentId name capacity bufferAfter true)
      (outcome : t.writer.outcomes .topology = some true) :
      Took shards t .finishTopology { t with
        memory := { t.memory with store := t.memory.store.create id parentId name capacity bufferAfter }
        topology := .idle }
  | finishDelete {id : Ulid} (phase : t.topology = .deleting id .sent)
      (outcome : t.writer.outcomes .topology = some true) :
      Took shards t .finishTopology { t with memory := t.memory.remove id, topology := .idle }
  | abandon (failing : t.writer.outcomes .topology = some false ∧
        ((∃ id parentId name capacity bufferAfter, t.topology = .creating id parentId name capacity bufferAfter true) ∨
          ∃ id, t.topology = .deleting id .sent) ∨
      t.writer.failed = true ∧ ∃ id, t.topology = .deleting id .unlinked) :
      Took shards t .abandonTopology { t with topology := .idle }
  | flush {n : Nat} {ok : Bool} {writer : LogWriter} (taken : t.writer.flush n ok = some writer)
      (took : t.writer.Took writer) : Took shards t (.flush n ok) { t with writer }
  | handle {fault : Option CompactFault} {writer : LogWriter} (taken : t.writer.handle fault = some writer)
      (took : t.writer.Took writer) : Took shards t (.handle fault) { t with writer }
  | beginCompaction (phase : t.compaction = .idle) :
      Took shards t .beginCompaction { t with writer := t.writer.push .compactBegin, compaction := .beginning }
  | enterWindow {ok : Bool} (phase : t.compaction = .beginning) (outcome : t.writer.outcomes .compaction = some ok) :
      Took shards t .enterWindow { t with compaction := .listing 0 [] }
  | list {visited : Nat} {before ids : List Ulid} (phase : t.compaction = .listing visited before)
      (more : visited < shards.count)
      (shard : ids.Perm (t.memory.store.resourceIds.filter fun r => (shards.of r).val = visited)) :
      Took shards t (.list ids) { t with compaction := .listing (visited + 1) (before ++ ids) }
  | allListed {ids : List Ulid} (phase : t.compaction = .listing shards.count ids) :
      Took shards t .allListed { t with compaction := .snapshotting [] none ids }
  | lookSnapshot {snapshots : List ResourceState} {rid : Ulid} {rest : List Ulid}
      (phase : t.compaction = .snapshotting snapshots none (rid :: rest)) :
      Took shards t .lookSnapshot { t with compaction := .snapshotting snapshots (t.memory.lookUp rid) rest }
  | snapshot {snapshots : List ResourceState} {h : Handle} {rest : List Ulid} {rs : ResourceState}
      (phase : t.compaction = .snapshotting snapshots (some h) rest) (free : t.lockedBy h = none)
      (present : t.memory.read h = some rs) :
      Took shards t .snapshot { t with compaction := .snapshotting (snapshots ++ [rs]) none rest }
  | submit {snapshots : List ResourceState} (phase : t.compaction = .snapshotting snapshots none []) :
      Took shards t .submit { t with
        writer := t.writer.push (.compact (Compaction.snapshotEvents snapshots)), compaction := .submitted }
  | finishCompaction {ok : Bool} (phase : t.compaction = .submitted)
      (outcome : t.writer.outcomes .compaction = some ok) :
      Took shards t .finishCompaction { t with compaction := .idle }

variable {shards : Shards} {t t' : Tenant} {a : Action}

/-- Every step is one of these. -/
theorem took (taken : t.step shards a = some t') : t.Took shards a t' := by
  cases a with
  | tick ms => cases taken; exact .tick ms
  | start i given =>
      simp only [step, Tenant.start] at taken
      split at taken
      · next phase prepared located => cases taken; exact .start phase prepared located
      · cases taken
  | lookUp i =>
      simp only [step, Tenant.lookUp] at taken
      split at taken
      · next phase =>
          unfold Memory.lookUp at taken
          split at taken
          · next present => cases taken; exact .lookUp phase present
          · cases taken
      · cases taken
  | lock i =>
      simp only [step, Tenant.lock] at taken
      split at taken
      · next phase =>
          split at taken
          · next free => cases taken; exact .lock phase free
          · cases taken
      · cases taken
  | allLocked i =>
      simp only [step, Tenant.allLocked] at taken
      split at taken
      · next phase => cases taken; exact .allLocked phase
      · cases taken
  | claim i =>
      simp only [step, Tenant.claim] at taken
      split at taken
      · next phase =>
          split at taken
          · next free => cases taken; exact .claim phase free
          · cases taken
      · cases taken
  | check i now rules =>
      simp only [step, Tenant.check] at taken
      split at taken
      · next phase =>
          split at taken
          · next reading =>
              split at taken
              · next admitted => cases taken; exact .check phase reading.2 admitted
              · cases taken
          · cases taken
      · cases taken
  | send i =>
      simp only [step, Tenant.send] at taken
      split at taken
      · next phase => cases taken; exact .send phase
      · cases taken
  | apply i =>
      simp only [step, Tenant.apply] at taken
      split at taken
      · next phase =>
          split at taken
          · next may => cases taken; exact .apply phase may
          · cases taken
      · cases taken
  | release i =>
      simp only [step, Tenant.release] at taken
      split at taken
      · next phase =>
          split at taken
          · next may => cases taken; exact .release phase may
          · cases taken
      · cases taken
  | fail i =>
      simp only [step, Tenant.fail] at taken
      split at taken
      · next phase =>
          split at taken
          · next failed => cases taken; exact .fail phase failed.1 failed.2
          · cases taken
      · cases taken
  | answer i =>
      simp only [step, Tenant.answer] at taken
      split at taken
      · next phase =>
          obtain ⟨ok, outcome, rfl⟩ := Option.map_eq_some_iff.mp taken
          exact .answer phase outcome
      · cases taken
  | refuse i =>
      simp only [step, Tenant.refuse] at taken
      split at taken
      · next held _ _ phase =>
          cases taken
          have same : held = (t.tasks i).held := by rw [phase]; rfl
          rw [same]
          exact .refuse (.inl ⟨_, _, _, _, by rw [← same]; exact phase⟩)
      · next held _ _ phase =>
          cases taken
          have same : held = (t.tasks i).held := by rw [phase]; rfl
          rw [same]
          exact .refuse (.inr ⟨_, _, _, _, by rw [← same]; exact phase⟩)
      · cases taken
  | create id parentId name capacity bufferAfter =>
      simp only [step, Tenant.create] at taken
      split at taken
      · next phase checked =>
          split at taken
          · cases taken
          · next running => cases taken; exact .create phase (by simpa using running) checked
      · cases taken
  | delete id =>
      simp only [step, Tenant.delete] at taken
      split at taken
      · next phase checked => cases taken; exact .delete phase checked
      · cases taken
  | unlink =>
      simp only [step, Tenant.unlink] at taken
      split at taken
      · next phase =>
          split at taken
          · next free present => cases taken; exact .unlink phase free present
          · cases taken
      · cases taken
  | clear =>
      simp only [step, Tenant.clear] at taken
      split at taken
      · next phase =>
          split at taken
          · cases taken
          · next running => cases taken; exact .clear phase (by simpa using running)
      · cases taken
  | sendTopology =>
      simp only [step, Tenant.sendTopology] at taken
      split at taken
      · next phase => cases taken; exact .sendCreate phase
      · next phase => cases taken; exact .sendDelete phase
      · cases taken
  | finishTopology =>
      simp only [step, Tenant.finishTopology] at taken
      split at taken
      · next phase outcome => cases taken; exact .finishCreate phase outcome
      · next phase outcome => cases taken; exact .finishDelete phase outcome
      · cases taken
  | abandonTopology =>
      simp only [step, Tenant.abandonTopology] at taken
      split at taken
      · next phase outcome => cases taken; exact .abandon (.inl ⟨outcome, .inl ⟨_, _, _, _, _, phase⟩⟩)
      · next phase outcome => cases taken; exact .abandon (.inl ⟨outcome, .inr ⟨_, phase⟩⟩)
      · next phase failed => cases taken; exact .abandon (.inr ⟨failed, _, phase⟩)
      · cases taken
  | flush n ok =>
      obtain ⟨writer, flushed, rfl⟩ := Option.map_eq_some_iff.mp taken
      exact .flush flushed (LogWriter.took_flush flushed)
  | handle fault =>
      obtain ⟨writer, handled, rfl⟩ := Option.map_eq_some_iff.mp taken
      exact .handle handled (LogWriter.took_handle handled)
  | beginCompaction =>
      simp only [step, Tenant.beginCompaction] at taken
      split at taken
      · next phase => cases taken; exact .beginCompaction phase
      · cases taken
  | enterWindow =>
      simp only [step, Tenant.enterWindow] at taken
      split at taken
      · next phase outcome => cases taken; exact .enterWindow phase outcome
      · cases taken
  | list ids =>
      simp only [step, Tenant.list] at taken
      split at taken
      · next phase =>
          split at taken
          · next shard => cases taken; exact .list phase shard.1 shard.2
          · cases taken
      · cases taken
  | allListed =>
      simp only [step, Tenant.allListed] at taken
      split at taken
      · next phase =>
          split at taken
          · next all => cases taken; exact .allListed (all ▸ phase)
          · cases taken
      · cases taken
  | lookSnapshot =>
      simp only [step, Tenant.lookSnapshot] at taken
      split at taken
      · next phase => cases taken; exact .lookSnapshot phase
      · cases taken
  | snapshot =>
      simp only [step, Tenant.snapshot] at taken
      split at taken
      · next phase =>
          split at taken
          · next free present => cases taken; exact .snapshot phase free present
          · cases taken
      · cases taken
  | submit =>
      simp only [step, Tenant.submit] at taken
      split at taken
      · next phase => cases taken; exact .submit phase
      · cases taken
  | finishCompaction =>
      simp only [step, Tenant.finishCompaction] at taken
      split at taken
      · next phase outcome => cases taken; exact .finishCompaction phase outcome
      · cases taken

/-! ## What stays -/

@[simp] theorem setTask_tasks (i j : TaskId) (task : Task) :
    (t.setTask i task).tasks j = if j = i then task else t.tasks j := Function.update_apply ..

@[simp] theorem setTask_self (i : TaskId) (task : Task) : (t.setTask i task).tasks i = task :=
  Function.update_self ..

@[simp] theorem unlock_tasks (held : List Handle) (j : TaskId) : (t.unlock held).tasks j = t.tasks j := rfl

/-- The request that an action is a step of. -/
def Action.task : Action → Option TaskId
  | .start i _ | .lookUp i | .lock i | .allLocked i | .claim i | .check i _ _ | .send i | .apply i | .release i
  | .fail i | .answer i | .refuse i => some i
  | _ => none

theorem Took.tasks_other (took : t.Took shards a t') {j : TaskId} (other : a.task ≠ some j) :
    t'.tasks j = t.tasks j := by
  cases took <;> first | rfl | exact Function.update_of_ne (fun same => other (congrArg some same.symm)) ..

/-- Actions of others leave a request where it is. -/
theorem run_tasks_other {actions : List Action} {j : TaskId} (others : ∀ a ∈ actions, a.task ≠ some j)
    (ran : Machine.run (step shards) actions t = some t') : t'.tasks j = t.tasks j :=
  Machine.run_unchanged (fun t => t.tasks j)
    (fun a inside _ _ taken => (Tenant.took taken).tasks_other (others a inside)) ran

theorem mem_pendingOn {held : List Handle} {records : List Event} {p : Handle × Event} :
    p ∈ pendingOn held records ↔
      p.1 ∈ held ∧ p.2 ∈ records.flatMap Event.perResource ∧ p.2.resourceId? = some p.1.1 := by
  obtain ⟨h, change⟩ := p
  constructor
  · intro inside
    obtain ⟨h', isHeld, inside⟩ := List.mem_flatMap.mp inside
    obtain ⟨change', own, same⟩ := List.mem_map.mp inside
    cases same
    obtain ⟨written, routed⟩ := List.mem_filter.mp own
    exact ⟨isHeld, written, by simpa using routed⟩
  · rintro ⟨isHeld, written, routed⟩
    refine List.mem_flatMap.mpr ⟨h, isHeld, List.mem_map_of_mem (List.mem_filter.mpr ⟨written, ?_⟩)⟩
    simpa using routed

/-- A change is pending because it was, or because its record has just been queued. -/
theorem Took.pending (took : t.Took shards a t') {j : TaskId} {p : Handle × Event}
    (inside : p ∈ (t'.tasks j).pending) : p ∈ (t.tasks j).pending ∨
      ∃ request held records, t.tasks j = .sending request held records ∧ p ∈ pendingOn held records ∧
        t'.writer = t.writer.push (.write (.request j) records) := by
  by_cases own : a.task = some j
  · cases took with
    | send phase =>
        cases own
        exact .inr ⟨_, _, _, phase, by simpa [Task.pending] using inside, rfl⟩
    | apply phase =>
        cases own
        rw [phase]
        exact .inl (List.mem_cons_of_mem _ (by simpa [Task.pending] using inside))
    | start | lookUp | lock | allLocked | claim | check | release | fail | answer | refuse =>
        cases own
        simp [Task.pending] at inside
    | _ => cases own
  · rw [took.tasks_other own] at inside
    exact .inl inside

/-- The log writer changes by a command queued or by a step of its own. -/
theorem Took.writer (took : t.Took shards a t') : t'.writer = t.writer ∨
    (∃ command, t'.writer = t.writer.push command) ∨ t.writer.Took t'.writer := by
  cases took with
  | send | sendCreate | sendDelete | beginCompaction | submit => exact .inr (.inl ⟨_, rfl⟩)
  | flush _ took | handle _ took => exact .inr (.inr took)
  | _ => exact .inl rfl

/-- Whether every pending change is about the resource it will be applied to. -/
def Routed (t : Tenant) : Prop := ∀ i, ∀ p ∈ (t.tasks i).pending, p.2.resourceId? = some p.1.1

theorem Routed.took (routed : t.Routed) (took : t.Took shards a t') : t'.Routed := by
  intro j p inside
  rcases took.pending inside with before | ⟨_, _, _, _, queued, _⟩
  · exact routed j p before
  · exact (mem_pendingOn.mp queued).2.2

/-- A resource in memory is as it was, or a request has just applied a change, or it is new. -/
theorem Took.read (took : t.Took shards a t') (routed : t.Routed) {h : Handle} {rs : ResourceState}
    (found : t'.memory.read h = some rs) : t.memory.read h = some rs ∨
      (∃ i change old, (h, change) ∈ (t.tasks i).pending ∧ t.memory.read h = some old ∧
        rs = old.applySingle change) ∨
      ∃ parentId name capacity bufferAfter, rs = .new h.1 parentId name capacity bufferAfter := by
  cases took with
  | @apply i _ _ h' change _ phase =>
      have pending : (h', change) ∈ (t.tasks i).pending := by
        rw [phase]
        exact List.mem_cons_self
      simp only [Memory.apply_read (routed i _ pending)] at found
      split at found
      · next same =>
          subst same
          obtain ⟨old, before, rfl⟩ := Option.map_eq_some_iff.mp found
          exact .inr (.inl ⟨i, change, old, pending, before, rfl⟩)
      · exact .inl found
  | unlink => exact .inl ((Memory.unlink_read ..).symm.trans found)
  | finishCreate =>
      simp only [Memory.create_read] at found
      split at found
      · next same =>
          cases found
          subst same
          exact .inr (.inr ⟨_, _, _, _, rfl⟩)
      · exact .inl found
  | finishDelete => exact .inl (Memory.remove_read found)
  | _ => exact .inl found

/-! ## Handles -/

theorem lookUp_eq {m : Memory} {h : Handle} :
    m.lookUp h.1 = some h ↔ h.2 = m.removed h.1 ∧ (m.store.getResource h.1).isSome := by
  obtain ⟨r, n⟩ := h
  have inTable : (m.store.getResource r).isSome = m.store.containsResource r := rfl
  rw [inTable]
  by_cases present : m.store.containsResource r
  · simp [Memory.lookUp, Memory.current, present, eq_comm]
  · simp [Memory.lookUp, present]

/-- The removal of a resource is the only step that makes a handle outlive its resource. -/
theorem Took.removed (took : t.Took shards a t') : t'.memory.removed = t.memory.removed ∨
    ∃ r, t'.memory = t.memory.remove r := by
  cases took with
  | apply => exact .inl (Memory.apply_removed ..)
  | finishDelete => exact .inr ⟨_, rfl⟩
  | _ => exact .inl rfl

/-! ## Locks -/

/-- Every lock a request believes it holds is its own. -/
structure Locks (t : Tenant) : Prop where
  owned : ∀ i, ∀ h ∈ (t.tasks i).held, t.lockedBy h = some i
  nodup : ∀ i, (t.tasks i).held.Nodup

theorem on_locks (e : Engine) : (on e).Locks := ⟨fun _ _ inside => (List.not_mem_nil inside).elim, fun _ => List.nodup_nil⟩

/-- A free lock is held by no request. -/
theorem Locks.free (locks : t.Locks) {h : Handle} (free : t.lockedBy h = none) (i : TaskId) : h ∉ (t.tasks i).held := by
  intro inside
  have owned := locks.owned i h inside
  rw [free] at owned
  cases owned

theorem Locks.exclusive (locks : t.Locks) {h : Handle} {i j : TaskId} (first : h ∈ (t.tasks i).held)
    (second : h ∈ (t.tasks j).held) : i = j :=
  Option.some.inj ((locks.owned i h first).symm.trans (locks.owned j h second))

theorem Locks.keep (locks : t.Locks) {i : TaskId} {task : Task} (tasks : t'.tasks = Function.update t.tasks i task)
    (lockedBy : t'.lockedBy = t.lockedBy) (held : task.held = (t.tasks i).held) : t'.Locks := by
  have same : ∀ j, (t'.tasks j).held = (t.tasks j).held := by
    intro j
    rw [tasks, Function.update_apply]
    split
    · next own => rw [held, own]
    · rfl
  exact ⟨fun j => by rw [same, lockedBy]; exact locks.owned j, fun j => by rw [same]; exact locks.nodup j⟩

theorem Locks.drop (locks : t.Locks) {i : TaskId} {task : Task} (none : task.held = []) {held : List Handle}
    (phase : (t.tasks i).held = held) : ((t.setTask i task).unlock held).Locks where
  owned j h inside := by
    rw [unlock_tasks, setTask_tasks] at inside
    split at inside
    · rw [none] at inside
      cases inside
    · next other =>
        have kept : h ∉ held := fun mine => other (locks.exclusive inside (phase ▸ mine))
        exact (if_neg kept).trans (locks.owned j h inside)
  nodup j := by
    rw [unlock_tasks, setTask_tasks]
    split
    · rw [none]
      exact List.nodup_nil
    · exact locks.nodup j

theorem Locks.took (locks : t.Locks) (took : t.Took shards a t') : t'.Locks := by
  cases took with
  | @lock i _ _ held h _ phase free =>
      have mine : (t.tasks i).held = held := by rw [phase]; rfl
      constructor
      · intro j h' inside
        simp only [setTask_tasks] at inside
        simp only [Function.update_apply]
        split at inside
        · next own =>
            subst own
            split
            · rfl
            · next other =>
                rcases List.mem_append.mp inside with before | now
                · exact locks.owned j h' (mine ▸ before)
                · exact absurd (List.mem_singleton.mp now) other
        · split
          · next same => exact absurd (same ▸ inside) (locks.free free j)
          · exact locks.owned j h' inside
      · intro j
        simp only [setTask_tasks]
        split
        · refine (mine ▸ locks.nodup i).append (List.nodup_singleton h) ?_
          rw [List.disjoint_singleton, ← mine]
          exact locks.free free i
        · exact locks.nodup j
  | start phase | lookUp phase | allLocked phase | claim phase | check phase | send phase | apply phase
  | answer phase => exact locks.keep rfl rfl (by rw [phase]; rfl)
  | release phase | fail phase => exact locks.drop rfl (by rw [phase]; rfl)
  | refuse => exact locks.drop rfl rfl
  | _ => exact ⟨locks.owned, locks.nodup⟩

/-! ## For small runs -/

theorem slot_valid : (⟨10, 20⟩ : Span).Valid := by decide

/-- No rules are inherited. -/
def noRules : Ulid → InheritedRules := fun _ => ⟨[], [], false⟩

def oneShard : Shards := ⟨1, fun _ => 0⟩

end Tenant

end Deltat
