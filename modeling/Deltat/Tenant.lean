import Deltat.CompactionFaults
import Deltat.Requests

/-! # A tenant with everything in flight

Requests, a change of the resource tree, a compaction and the log writer run at the same time.
They meet in memory, at the locks of the resources and in the writer's queue. A step is what
one of them does between two points where the others can be seen.
-/

namespace Deltat

open Limits

abbrev TaskId := Nat

/-- A resource as those who looked it up keep it: its id, and how many resources of that id
    had been removed before. -/
abbrev Handle := Ulid × Nat

/-- The resources in memory. One that has left the table lives on for those who keep it. -/
structure Memory where
  store : InMemoryStore
  removed : Ulid → Nat
  orphans : Handle → Option ResourceState

namespace Memory

variable (m : Memory)

def current (r : Ulid) : Handle := (r, m.removed r)

def lookUp (r : Ulid) : Option Handle := if m.store.containsResource r then some (m.current r) else none

/-- The state behind a handle. -/
def read (h : Handle) : Option ResourceState :=
  if h.2 = m.removed h.1 then m.store.getResource h.1 else m.orphans h

/-- Apply a change to a resource whose guard the caller holds. -/
def apply (h : Handle) (change : Event) : Memory :=
  if h.2 = m.removed h.1 then { m with store := m.store.replayOn h.1 change }
  else
    match m.orphans h with
    | some rs =>
        let applied := m.store.applyEvent rs change
        { m with store := applied.1, orphans := Function.update m.orphans h (some applied.2) }
    | none => m

def remove (r : Ulid) : Memory where
  store := m.store.removeResource r
  removed := Function.update m.removed r (m.removed r + 1)
  orphans := Function.update m.orphans (m.current r) (m.store.getResource r)

end Memory

/-! ## The log writer -/

/-- Whom the log writer answers. -/
inductive Sender where
  | request (task : TaskId)
  | topology
  | compaction
  deriving DecidableEq

inductive WalCommand where
  /-- Flushed together with the appends queued around it. -/
  | append (sender : Sender) (event : Event)
  /-- Flushed alone. -/
  | appendAtomic (sender : Sender) (events : List Event)
  | compactBegin
  | compact (events : List Event)
  deriving DecidableEq

namespace WalCommand

/-- The command that writes these records. -/
def write (sender : Sender) : List Event → WalCommand
  | [event] => append sender event
  | events => appendAtomic sender events

def sender : WalCommand → Sender
  | append sender _ | appendAtomic sender _ => sender
  | compactBegin | compact _ => .compaction

def records : WalCommand → List Event
  | append _ event => [event]
  | appendAtomic _ events => events
  | compactBegin | compact _ => []

def isAppend : WalCommand → Bool
  | append .. => true
  | _ => false

/-- What one flush takes: appends, or one atomic append. -/
def oneFlush : List WalCommand → Bool
  | [] => false
  | [appendAtomic ..] => true
  | batch => batch.all isAppend

end WalCommand

/-- The background task that owns the log, its queue and its answers. -/
structure LogWriter where
  queue : List WalCommand
  /-- The records of the file at the log's path. -/
  file : List Event
  /-- Whether the open handle is on that file. -/
  attached : Bool
  /-- Events acked since a compaction began, none outside its window. -/
  recording : Option (List Event)
  failed : Bool
  /-- The answers that have been sent. -/
  outcomes : Sender → Option Bool
  /-- Every record queued so far, and every one flushed, in order. -/
  handed : List Event
  flushed : List Event

namespace LogWriter

variable (w : LogWriter)

/-- Queue a command. Its answer will replace the sender's last. -/
def push (command : WalCommand) : LogWriter :=
  { w with
    queue := w.queue ++ [command]
    handed := w.handed ++ command.records
    outcomes := Function.update w.outcomes command.sender none }

/-- Take the first `n` commands off the queue and answer them. -/
def answer (n : Nat) (ok : Bool) : LogWriter :=
  { w with
    queue := w.queue.drop n
    outcomes := fun s => if s ∈ (w.queue.take n).map WalCommand.sender then some ok else w.outcomes s }

/-- Write a batch under one flush. A failed one stops the tenant, as does a refused one. -/
def flush (n : Nat) (ok : Bool) : Option LogWriter :=
  let events := (w.queue.take n).flatMap WalCommand.records
  if WalCommand.oneFlush (w.queue.take n) then
    match ok, w.failed with
    | true, true => none
    | true, false =>
        some { w.answer n true with
          file := if w.attached then w.file ++ events else w.file
          recording := w.recording.map (· ++ events)
          flushed := w.flushed ++ events }
    | false, _ => some { w.answer n false with failed := true }
  else none

/-- Start recording, or rewrite the file as a snapshot and what was recorded. -/
def handle (fault : Option CompactFault) : Option LogWriter :=
  match w.queue with
  | .compactBegin :: _ => some { w.answer 1 true with recording := some [] }
  | .compact events :: _ =>
      let merged := Compaction.mergeRecorded events (w.recording.getD [])
      if w.failed then some { w.answer 1 false with recording := none }
      else
        match fault with
        | none => some { w.answer 1 true with file := merged, attached := true, recording := none }
        | some fault =>
            if fault.renamed then some { w.answer 1 false with file := merged, attached := false, recording := none }
            else some { w.answer 1 false with recording := none }
  | _ => none

end LogWriter

/-! ## Who is where -/

/-- The progress of a request. -/
inductive Task where
  | idle
  /-- Taking locks, in ascending order: those held, the one waited for, and those not looked up. -/
  | locking (request : Request.Prepared) (targets : List Ulid) (held : List Handle) (found : Option Handle)
      (rest : List Ulid)
  /-- Checking, under every lock, that its ids are free. -/
  | claiming (request : Request.Prepared) (targets : List Ulid) (held : List Handle) (claimed unclaimed : List Ulid)
  /-- Past every check and past the look at the failed flag. -/
  | sending (request : Request.Prepared) (held : List Handle) (records : List Event)
  /-- With its records queued and these changes not applied. -/
  | sent (request : Request.Prepared) (held : List Handle) (pending : List (Handle × Event))
  /-- Waiting for the flush without locks. -/
  | waiting (request : Request.Prepared)
  | answered (ok : Bool)

namespace Task

/-- The locks a request holds. -/
def held : Task → List Handle
  | locking _ _ held _ _ | claiming _ _ held _ _ | sending _ held _ | sent _ held _ => held
  | idle | waiting _ | answered _ => []

/-- The changes a request has queued and not applied. -/
def pending : Task → List (Handle × Event)
  | sent _ _ pending => pending
  | _ => []

end Task

/-- How far a delete is. -/
inductive Stage where
  | found
  /-- Its entities are unmapped and its parent has let it go. -/
  | unlinked
  /-- Past the look at the failed flag. -/
  | cleared
  | sent
  deriving DecidableEq

/-- The one create or delete under way. -/
inductive Topology where
  | idle
  | creating (id : Ulid) (parentId : Option Ulid) (name : Option String) (capacity : UInt32)
      (bufferAfter : Option Ms) (sent : Bool)
  | deleting (id : Ulid) (stage : Stage)
  deriving DecidableEq

/-- The one compaction under way. -/
inductive Compacting where
  | idle
  | beginning
  /-- Reading the resource table shard by shard. -/
  | listing (visited : Nat) (ids : List Ulid)
  /-- Copying one resource after the other: the copies, the one waited for, and those not looked up. -/
  | snapshotting (snapshots : List ResourceState) (found : Option Handle) (rest : List Ulid)
  | submitted
  deriving DecidableEq

/-- How the resource table spreads its ids. -/
structure Shards where
  count : Nat
  of : Ulid → Fin count

structure Tenant where
  memory : Memory
  writer : LogWriter
  clock : Ms
  maxHoldTtlMs : Ms
  /-- Who has locked a resource for writing. -/
  lockedBy : Handle → Option TaskId
  tasks : TaskId → Task
  topology : Topology
  compaction : Compacting

namespace Tenant

/-- A tenant on an engine, with nothing in flight. -/
def on (e : Engine) : Tenant where
  memory := ⟨e.store, fun _ => 0, fun _ => none⟩
  writer := ⟨[], e.log, true, none, e.failed, fun _ => none, [], []⟩
  clock := e.clock
  maxHoldTtlMs := e.maxHoldTtlMs
  lockedBy _ := none
  tasks _ := .idle
  topology := .idle
  compaction := .idle

variable (t : Tenant)

/-- What the checks read of the tenant. -/
def engine : Engine where
  store := t.memory.store
  clock := t.clock
  earliestHoldExpiry := i64Min
  holdGeneration := 0
  maxHoldTtlMs := t.maxHoldTtlMs
  failed := t.writer.failed
  flushFault := none
  log := t.writer.file

def setTask (i : TaskId) (task : Task) : Tenant := { t with tasks := Function.update t.tasks i task }

/-- The state behind the lock that a request holds on a resource. -/
def guard (held : List Handle) (rid : Ulid) : Option ResourceState :=
  (held.find? (·.1 = rid)).bind t.memory.read

def unlock (held : List Handle) : Tenant :=
  { t with lockedBy := fun h => if h ∈ held then none else t.lockedBy h }

/-! ## Requests -/

/-- The changes of the records, for each locked resource its own. -/
def pendingOn (held : List Handle) (records : List Event) : List (Handle × Event) :=
  held.flatMap fun h => ((records.flatMap Event.perResource).filter (·.resourceId? = some h.1)).map (h, ·)

def start (i : TaskId) (given : Request) : Option Tenant :=
  match t.tasks i, given.prepared t.engine, given.targets t.engine with
  | .idle, .ok request, .ok (rid :: rids) =>
      some (t.setTask i (.locking request (rid :: rids) [] none (Engine.ascending (rid :: rids))))
  | _, _, _ => none

def lookUp (i : TaskId) : Option Tenant :=
  match t.tasks i with
  | .locking request targets held none (rid :: rest) =>
      (t.memory.lookUp rid).map fun h => t.setTask i (.locking request targets held (some h) rest)
  | _ => none

/-- Take the lock that was waited for. -/
def lock (i : TaskId) : Option Tenant :=
  match t.tasks i with
  | .locking request targets held (some h) rest =>
      if t.lockedBy h = none then
        some { t.setTask i (.locking request targets (held ++ [h]) none rest) with
          lockedBy := Function.update t.lockedBy h (some i) }
      else none
  | _ => none

def allLocked (i : TaskId) : Option Tenant :=
  match t.tasks i with
  | .locking request targets held none [] => some (t.setTask i (.claiming request targets held [] request.1.claims))
  | _ => none

/-- Check the next id against the entity index. -/
def claim (i : TaskId) : Option Tenant :=
  match t.tasks i with
  | .claiming request targets held claimed (x :: rest) =>
      if t.memory.store.getResourceForEntity x = none then
        some (t.setTask i (.claiming request targets held (claimed ++ [x]) rest))
      else none
  | _ => none

/-- The other checks, at a reading of the clock, and the look at the failed flag. -/
def check (i : TaskId) (now : Ms) (rules : Ulid → InheritedRules) : Option Tenant :=
  match t.tasks i with
  | .claiming request targets held _ [] =>
      if now ≤ t.clock ∧ t.writer.failed = false then
        match request.1.admitRecords { t.engine with clock := now } (t.guard held) rules targets with
        | .ok records => some (t.setTask i (.sending request held records))
        | .error _ => none
      else none
  | _ => none

def send (i : TaskId) : Option Tenant :=
  match t.tasks i with
  | .sending request held records =>
      some { t.setTask i (.sent request held (pendingOn held records)) with
        writer := t.writer.push (.write (.request i) records) }
  | _ => none

/-- Whether a request whose records are queued may change memory. -/
def mayApply (i : TaskId) (request : Request.Prepared) : Bool :=
  request.1.early || t.writer.outcomes (.request i) = some true

def apply (i : TaskId) : Option Tenant :=
  match t.tasks i with
  | .sent request held ((h, change) :: rest) =>
      if t.mayApply i request then
        some { t.setTask i (.sent request held rest) with memory := t.memory.apply h change }
      else none
  | _ => none

def release (i : TaskId) : Option Tenant :=
  match t.tasks i with
  | .sent request held [] =>
      if t.mayApply i request then some ((t.setTask i (.waiting request)).unlock held) else none
  | _ => none

/-- A write that waits for its flush under the locks learns that it failed. -/
def fail (i : TaskId) : Option Tenant :=
  match t.tasks i with
  | .sent request held _ =>
      if request.1.early = false ∧ t.writer.outcomes (.request i) = some false then
        some ((t.setTask i (.answered false)).unlock held)
      else none
  | _ => none

def answer (i : TaskId) : Option Tenant :=
  match t.tasks i with
  | .waiting _ => (t.writer.outcomes (.request i)).map fun ok => t.setTask i (.answered ok)
  | _ => none

/-- A check refuses, or nobody waits for the request any more. -/
def refuse (i : TaskId) : Option Tenant :=
  match t.tasks i with
  | .locking _ _ held _ _ | .claiming _ _ held _ _ => some ((t.setTask i (.answered false)).unlock held)
  | _ => none

/-! ## Creates and deletes -/

def create (id : Ulid) (parentId : Option Ulid) (name : Option String) (capacity : UInt32)
    (bufferAfter : Option Ms) : Option Tenant :=
  match t.topology, t.engine.checkCreate id parentId name capacity bufferAfter with
  | .idle, .ok () =>
      if t.writer.failed then none
      else some { t with topology := .creating id parentId name capacity bufferAfter false }
  | _, _ => none

def delete (id : Ulid) : Option Tenant :=
  match t.topology, t.engine.checkDelete id with
  | .idle, .ok _ => some { t with topology := .deleting id .found }
  | _, _ => none

/-- Under a read guard, unmap the entities of the resource and take it off its parent. -/
def unlink : Option Tenant :=
  match t.topology with
  | .deleting id .found =>
      match t.lockedBy (t.memory.current id), t.memory.store.getResource id with
      | none, some rs => some { t with
          memory := { t.memory with store := t.memory.store.unlink rs id }, topology := .deleting id .unlinked }
      | _, _ => none
  | _ => none

/-- The look at the failed flag. -/
def clear : Option Tenant :=
  match t.topology with
  | .deleting id .unlinked => if t.writer.failed then none else some { t with topology := .deleting id .cleared }
  | _ => none

def sendTopology : Option Tenant :=
  match t.topology with
  | .creating id parentId name capacity bufferAfter false => some { t with
      writer := t.writer.push (.append .topology (.resourceCreated id parentId name capacity bufferAfter))
      topology := .creating id parentId name capacity bufferAfter true }
  | .deleting id .cleared => some { t with
      writer := t.writer.push (.append .topology (.resourceDeleted id)), topology := .deleting id .sent }
  | _ => none

/-- After the flush, update the table. -/
def finishTopology : Option Tenant :=
  match t.topology, t.writer.outcomes .topology with
  | .creating id parentId name capacity bufferAfter true, some true => some { t with
      memory := { t.memory with store := t.memory.store.create id parentId name capacity bufferAfter }
      topology := .idle }
  | .deleting id .sent, some true => some { t with memory := t.memory.remove id, topology := .idle }
  | _, _ => none

def abandonTopology : Option Tenant :=
  match t.topology, t.writer.outcomes .topology, t.writer.failed with
  | .creating _ _ _ _ _ true, some false, _ | .deleting _ .sent, some false, _ | .deleting _ .unlinked, _, true =>
      some { t with topology := .idle }
  | _, _, _ => none

/-! ## Compaction -/

def beginCompaction : Option Tenant :=
  match t.compaction with
  | .idle => some { t with writer := t.writer.push .compactBegin, compaction := .beginning }
  | _ => none

def enterWindow : Option Tenant :=
  match t.compaction, t.writer.outcomes .compaction with
  | .beginning, some _ => some { t with compaction := .listing 0 [] }
  | _, _ => none

/-- Read the ids of the next shard, in any order. -/
def list (shards : Shards) (ids : List Ulid) : Option Tenant :=
  match t.compaction with
  | .listing visited before =>
      if visited < shards.count ∧ ids.Perm (t.memory.store.resourceIds.filter fun r => (shards.of r).val = visited) then
        some { t with compaction := .listing (visited + 1) (before ++ ids) }
      else none
  | _ => none

def allListed (shards : Shards) : Option Tenant :=
  match t.compaction with
  | .listing visited ids =>
      if visited = shards.count then some { t with compaction := .snapshotting [] none ids } else none
  | _ => none

/-- Look the next resource up, or skip it when it is gone. -/
def lookSnapshot : Option Tenant :=
  match t.compaction with
  | .snapshotting snapshots none (rid :: rest) =>
      some { t with compaction := .snapshotting snapshots (t.memory.lookUp rid) rest }
  | _ => none

/-- Copy a resource under a read guard. -/
def snapshot : Option Tenant :=
  match t.compaction with
  | .snapshotting snapshots (some h) rest =>
      match t.lockedBy h, t.memory.read h with
      | none, some rs => some { t with compaction := .snapshotting (snapshots ++ [rs]) none rest }
      | _, _ => none
  | _ => none

def submit : Option Tenant :=
  match t.compaction with
  | .snapshotting snapshots none [] => some { t with
      writer := t.writer.push (.compact (Compaction.snapshotEvents snapshots)), compaction := .submitted }
  | _ => none

def finishCompaction : Option Tenant :=
  match t.compaction, t.writer.outcomes .compaction with
  | .submitted, some _ => some { t with compaction := .idle }
  | _, _ => none

/-! ## Steps -/

inductive Action where
  | tick (ms : Nat)
  | start (i : TaskId) (given : Request)
  | lookUp (i : TaskId)
  | lock (i : TaskId)
  | allLocked (i : TaskId)
  | claim (i : TaskId)
  | check (i : TaskId) (now : Ms) (rules : Ulid → InheritedRules)
  | send (i : TaskId)
  | apply (i : TaskId)
  | release (i : TaskId)
  | fail (i : TaskId)
  | answer (i : TaskId)
  | refuse (i : TaskId)
  | create (id : Ulid) (parentId : Option Ulid) (name : Option String) (capacity : UInt32) (bufferAfter : Option Ms)
  | delete (id : Ulid)
  | unlink
  | clear
  | sendTopology
  | finishTopology
  | abandonTopology
  | flush (n : Nat) (ok : Bool)
  | handle (fault : Option CompactFault)
  | beginCompaction
  | enterWindow
  | list (ids : List Ulid)
  | allListed
  | lookSnapshot
  | snapshot
  | submit
  | finishCompaction

/-- The tenant after an action, when it is possible. -/
def step (shards : Shards) (t : Tenant) : Action → Option Tenant
  | .tick ms => some { t with clock := t.clock + ms }
  | .start i given => t.start i given
  | .lookUp i => t.lookUp i
  | .lock i => t.lock i
  | .allLocked i => t.allLocked i
  | .claim i => t.claim i
  | .check i now rules => t.check i now rules
  | .send i => t.send i
  | .apply i => t.apply i
  | .release i => t.release i
  | .fail i => t.fail i
  | .answer i => t.answer i
  | .refuse i => t.refuse i
  | .create id parentId name capacity bufferAfter => t.create id parentId name capacity bufferAfter
  | .delete id => t.delete id
  | .unlink => t.unlink
  | .clear => t.clear
  | .sendTopology => t.sendTopology
  | .finishTopology => t.finishTopology
  | .abandonTopology => t.abandonTopology
  | .flush n ok => (t.writer.flush n ok).map fun writer => { t with writer }
  | .handle fault => (t.writer.handle fault).map fun writer => { t with writer }
  | .beginCompaction => t.beginCompaction
  | .enterWindow => t.enterWindow
  | .list ids => t.list shards ids
  | .allListed => t.allListed shards
  | .lookSnapshot => t.lookSnapshot
  | .snapshot => t.snapshot
  | .submit => t.submit
  | .finishCompaction => t.finishCompaction

end Tenant

end Deltat
