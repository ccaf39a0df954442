import Deltat.Cleaning
import Deltat.CrashAtomicity
import Deltat.RelationalTenant
import Deltat.Restarts

/-! # A tenant is a durable database

Wherever a crash cuts the log, the next start shows the tables as everything answered left them. Of the
request that the crash stopped it shows a part: the first of several changes, and of rows inserted at once
the first ones. A statement that asks for one change, of one row or by rewriting, is done or it is not.
-/

namespace Deltat

open Lib Lib.Outcome Lib.Conversations Limits Sql

/-! ## What may be found -/

/-- The changes that a statement asks for. -/
def Sql.changes (lib : WriteLibrary) (latest : Ms) (statement : Sql.Statement) : List Change :=
  match parseSql lib statement with
  | .ok (.write command) => command.changes latest
  | .ok (.delete command) => command.changes
  | .ok (.select _) | .error _ => []

/-- The changes that a request asks for, of a tenant whose holds last `maxHoldTtlMs` at most. -/
def TenantRequest.changes (lib : WriteLibrary) (maxHoldTtlMs : Ms) : TenantRequest → List Change
  | statement now written => Sql.changes lib (satAdd now maxHoldTtlMs) written
  | expireHold id => [.delete .holds id]
  | collectGarbage now retentionMs => [.collect now (satSub now retentionMs)]
  | compactWal _ => []

/-- Whether a request appends its records to the log. The others are of the log's own upkeep. -/
def TenantRequest.Appends : TenantRequest → Prop
  | statement .. | expireHold _ => True
  | collectGarbage .. | compactWal _ => False

/-- The tables after a part of the changes. -/
def Tables.Partly (t : Tables) (changes : List Change) (t' : Tables) : Prop :=
  ∃ kept, Change.Cut changes kept ∧ t' = kept.foldl Change.on t

/-! ## Restored tables -/

theorem InMemoryStore.Restores.tables {s live : InMemoryStore} (same : s.Restores live) : s.tables = live.tables := by
  have infos : ∀ r, s.resourceInfo r = live.resourceInfo r := by
    intro r
    have both := same.table r
    unfold resourceInfo
    cases present : live.getResource r with
    | none =>
        rw [present] at both
        rw [rel_none both]
    | some rs' =>
        rw [present] at both
        obtain ⟨rs, rebuilt, restores⟩ := rel_some both
        rw [rebuilt]
        simp [restores.id, restores.parentId, restores.name, restores.capacity, restores.bufferAfter]
  have has : ∀ r i, s.Has r i ↔ live.Has r i := by
    intro r i
    have both := same.table r
    unfold Has
    cases present : live.getResource r with
    | none =>
        rw [present] at both
        rw [rel_none both]
    | some rs' =>
        rw [present] at both
        obtain ⟨rs, rebuilt, restores⟩ := rel_some both
        rw [rebuilt]
        simp [restores.intervals.mem_iff]
  simp only [InMemoryStore.tables, infos, has]

namespace Engine

/-- A log that restores a store with all its parents opens as that store. -/
theorem opened_tables {events : List Event} {live : InMemoryStore} (restores : (InMemoryStore.replayed events).Restores live)
    (consistent : live.Consistent) (clock maxHoldTtlMs : Ms) (order : List Ulid) :
    (Engine.opened clock maxHoldTtlMs events order).store.tables = live.tables := by
  have parents : ∀ c rs p, (InMemoryStore.replayed events).getResource c = some rs → rs.parentId = some p →
      ((InMemoryStore.replayed events).getResource p).isSome := by
    intro c rs p present under
    have child := restores.table c
    rw [present] at child
    obtain ⟨live', found, same⟩ : ∃ rs', live.getResource c = some rs' ∧ rs.Restores rs' := by
      cases found : live.getResource c with
      | none =>
          rw [found] at child
          cases child
      | some rs' =>
          rw [found] at child
          cases child with
          | some same => exact ⟨rs', rfl, same⟩
    have inTable := consistent.parentExists c live' p found (same.parentId.symm.trans under)
    obtain ⟨parent, there⟩ := Option.isSome_iff_exists.mp inTable
    have both := restores.table p
    rw [there] at both
    obtain ⟨_, rebuilt, _⟩ := rel_some both
    rw [rebuilt]
    rfl
  change (InMemoryStore.rebuilt events order).tables = live.tables
  rw [InMemoryStore.rebuilt, InMemoryStore.foldl_detachOrphan parents]
  exact restores.tables

/-! ## What is on disk between requests -/

/-- An engine whose log restores it. -/
structure Durable (e : Engine) : Prop where
  healthy : e.Healthy
  recoverable : e.Recoverable
  limits : ∀ ev ∈ e.log, ev.WithinLimits

theorem start_durable (clock maxHoldTtlMs : Ms) : (Engine.start clock maxHoldTtlMs).Durable where
  healthy := start_healthy clock maxHoldTtlMs
  recoverable := empty_restores clock maxHoldTtlMs
  limits := fun _ inside => absurd inside List.not_mem_nil

section

variable {e e' : Engine} {changes : List Change} {records : List Event}

theorem replayed_append (e : Engine) (records : List Event) :
    InMemoryStore.replayed (e.log ++ records) = records.foldl InMemoryStore.replayEvent (InMemoryStore.replayed e.log) :=
  List.foldl_append

theorem Durable.persists (durable : e.Durable) (healthy : e'.Healthy) (log : e'.log = e.log ++ records)
    (persists : e.Persists changes records e'.store) : e'.Durable where
  healthy := healthy
  recoverable := by
    unfold Recoverable
    rw [log, replayed_append]
    exact persists.restores _ durable.recoverable
  limits := by
    rw [log]
    exact List.forall_mem_append.mpr ⟨durable.limits, persists.limits⟩

/-- A compaction leaves nothing in memory that is not on disk. -/
theorem compact_durable (h : e.Healthy) {order : List Ulid} (lists : order.Perm e.store.resourceIds) :
    (e.compactWal order).Durable ∧ ∀ ev ∈ (e.compactWal order).log, ev.serialize.length ≤ Wal.maxWalRecordBytes := by
  have recoverable := compactWal_recoverable h lists
  have limits := snapshotEvents_limits h order
  rw [compactWal_eq h.running] at recoverable ⊢
  exact ⟨⟨⟨h.running, h.noFault, h.consistent⟩, recoverable, fun ev inside => (limits ev inside).1⟩,
    fun ev inside => (limits ev inside).2⟩

/-- How many intervals a garbage collection removes. -/
def collectedCount (e : Engine) (now retentionMs : Ms) : Nat :=
  (e.store.resourceIds.map fun r => (droppedIds e.store now (satSub now retentionMs) r).length).sum

/-- A garbage collection that removes nothing leaves every resource as it is. -/
theorem gc_nothing (durable : e.Durable) {now retentionMs : Ms} (none : e.collectedCount now retentionMs = 0) :
    (e.gcPastIntervals now retentionMs).Durable where
  healthy := next_healthy durable.healthy (.gc now retentionMs)
  limits := durable.limits
  recoverable := by
    refine ⟨durable.recoverable.linked, fun r => ?_⟩
    have same : (e.gcPastIntervals now retentionMs).store.getResource r = e.store.getResource r := by
      rw [gc_getResource durable.healthy]
      cases present : e.store.getResource r with
      | none => rfl
      | some rs =>
          have listed : r ∈ e.store.resourceIds := mem_resourceIds.mpr (by rw [present]; rfl)
          have dropped := List.sum_eq_zero_iff.mp none _ (List.mem_map_of_mem listed)
          rw [droppedIds, present, List.length_eq_zero_iff] at dropped
          have stays : ∀ i ∈ rs.intervals, dominated now (satSub now retentionMs) rs.buffer i = false := by
            simpa using dropped
          have kept : rs.collected now (satSub now retentionMs) = rs := by
            unfold ResourceState.collected
            rw [List.filter_eq_self.mpr fun i inside => by rw [stays i inside]; rfl]
          rw [Option.map_some, kept]
    rw [same]
    exact durable.recoverable.table r

/-- The records of a statement persist its changes. -/
theorem runStatement_persists (h : e.Healthy) (lib : WriteLibrary) (limit : Nat) (statement : Sql.Statement) :
    Ends (runStatement lib limit statement) e fun _ e' => ∃ records, e'.log = e.log ++ records ∧
      e.Persists (Sql.changes lib e.latestExpiry statement) records e'.store := by
  have nothing : ∃ records, e.log = e.log ++ records ∧ e.Persists (Sql.changes lib e.latestExpiry statement) records e.store :=
    ⟨[], (List.append_nil _).symm, persists_nothing h _⟩
  have tagged : ∀ {changes : List Change} {tag : Tag} {x : WireM Tag}, Ends x e (Tagged changes tag e) →
      Ends (do return .execution (← x) : WireM Response) e fun _ e' => ∃ records, e'.log = e.log ++ records ∧
        e.Persists changes records e'.store := by
    intro changes tag x tagged
    have logged := tagged.1.logged
    apply Ends.bind
    unfold Ends
    cases outcome : (exec x e).1 with
    | error | ok => exact logged
  apply Ends.check
  · exact fun _ _ => nothing
  · intro command ok
    have parsed : parseSql lib statement = .ok command := mapError_ok.mp ok
    cases command with
    | write command =>
        unfold Sql.changes
        rw [parsed]
        exact tagged (write_tagged h command limit)
    | delete command =>
        unfold Sql.changes
        rw [parsed]
        exact tagged (delete_tagged h command)
    | select command => exact Ends.get (Ends.check (fun _ _ => nothing) fun _ _ => nothing)

theorem serve_persists (h : e.Healthy) (lib : WriteLibrary) (limit : Nat) {request : TenantRequest} (appends : request.Appends) :
    ∃ records, (e.serve lib limit request).2.log = e.log ++ records ∧
      e.Persists (request.changes lib e.maxHoldTtlMs) records (e.serve lib limit request).2.store := by
  cases request with
  | statement now statement =>
      have later : Healthy { e with clock := now } := ⟨h.running, h.noFault, h.consistent⟩
      obtain ⟨records, log, persists⟩ := runStatement_persists later lib limit statement
      exact ⟨records, log, persists.limits, persists.restores, persists.cut⟩
  | expireHold id => exact (performs_removeHold h id).logged
  | collectGarbage | compactWal => cases appends

end

/-! ## Conversations that end in a crash -/

/-- The requests of a tenant in turn. A garbage collection is followed by a compaction unless nothing was collected. -/
inductive Orderly (lib : WriteLibrary) (limit : Nat) : Engine → List TenantRequest → Prop
  | nil (e : Engine) : Orderly lib limit e []
  | appends {e : Engine} {request : TenantRequest} {rest : List TenantRequest} (appends : request.Appends)
      (later : Orderly lib limit (e.serve lib limit request).2 rest) : Orderly lib limit e (request :: rest)
  | compacts {e : Engine} {order : List Ulid} {rest : List TenantRequest} (lists : order.Perm e.store.resourceIds)
      (later : Orderly lib limit (e.compactWal order) rest) : Orderly lib limit e (.compactWal order :: rest)
  | collectsNothing {e : Engine} {now retentionMs : Ms} {rest : List TenantRequest}
      (nothing : e.collectedCount now retentionMs = 0) (later : Orderly lib limit (e.gcPastIntervals now retentionMs) rest) :
      Orderly lib limit e (.collectGarbage now retentionMs :: rest)
  | collects {e : Engine} {now retentionMs : Ms} {order : List Ulid} {rest : List TenantRequest}
      (lists : order.Perm (e.gcPastIntervals now retentionMs).store.resourceIds)
      (later : Orderly lib limit ((e.gcPastIntervals now retentionMs).compactWal order) rest) :
      Orderly lib limit e (.collectGarbage now retentionMs :: .compactWal order :: rest)

/-- The log file that a crash during a request leaves. Records are cut anywhere, a compacted log replaces
    the old one at once. -/
inductive Crashed (k : Crates) (lib : WriteLibrary) (limit : Nat) (e : Engine) : TenantRequest → List UInt8 → Prop
  | appending {request : TenantRequest} (appends : request.Appends) {n : Nat} (behind : (Wal.fileOf k e.log).length ≤ n) :
      Crashed k lib limit e request ((Wal.fileOf k (e.serve lib limit request).2.log).take n)
  | early {request : TenantRequest} (compacts : ¬ request.Appends) : Crashed k lib limit e request (Wal.fileOf k e.log)
  | compacted {order : List Ulid} (lists : order.Perm e.store.resourceIds) :
      Crashed k lib limit e (.compactWal order) (Wal.fileOf k (e.compactWal order).log)
  | collected {now retentionMs : Ms} {order : List Ulid}
      (lists : order.Perm (e.gcPastIntervals now retentionMs).store.resourceIds) :
      Crashed k lib limit e (.collectGarbage now retentionMs)
        (Wal.fileOf k ((e.gcPastIntervals now retentionMs).compactWal order).log)

section

variable {lib : WriteLibrary} {limit : Nat} {e : Engine} {k : Crates}

theorem Orderly.durable {requests : List TenantRequest} (orderly : Orderly lib limit e requests) (durable : e.Durable) :
    (converse (serve lib limit) e requests).2.Durable ∧
      (converse (serve lib limit) e requests).2.maxHoldTtlMs = e.maxHoldTtlMs := by
  induction orderly with
  | nil => exact ⟨durable, rfl⟩
  | @appends e request rest appends _ ih =>
      obtain ⟨records, log, persists⟩ := serve_persists durable.healthy lib limit appends
      obtain ⟨⟨healthy, ttl⟩, _⟩ := serve_serves lib limit e request ⟨durable.healthy, rfl⟩
      obtain ⟨later, same⟩ := ih (durable.persists healthy log persists)
      exact ⟨later, same.trans ttl⟩
  | @compacts e order rest lists _ ih =>
      obtain ⟨⟨_, ttl⟩, _⟩ := serve_serves lib limit e (.compactWal order) ⟨durable.healthy, rfl⟩
      obtain ⟨later, same⟩ := ih (compact_durable durable.healthy lists).1
      exact ⟨later, same.trans ttl⟩
  | collectsNothing nothing _ ih => exact ih (gc_nothing durable nothing)
  | @collects e now retentionMs order rest lists _ ih =>
      have healthy : (e.gcPastIntervals now retentionMs).Healthy := next_healthy durable.healthy (.gc now retentionMs)
      obtain ⟨⟨_, ttl⟩, _⟩ := serve_serves lib limit (e.gcPastIntervals now retentionMs) (.compactWal order) ⟨healthy, rfl⟩
      obtain ⟨later, same⟩ := ih (compact_durable healthy lists).1
      exact ⟨later, same.trans ttl⟩

/-- A crash during a request leaves a part of its changes. -/
theorem Crashed.partly (decodes : k.Decodes) (durable : e.Durable) {request : TenantRequest} {file : List UInt8}
    (crashed : Crashed k lib limit e request file)
    (short : ∀ ev ∈ e.log ++ (e.serve lib limit request).2.log, ev.serialize.length ≤ Wal.maxWalRecordBytes) :
    ∃ events, Wal.replay k (some file) = .ok events ∧ ∀ clock ttl order,
      e.store.tables.Partly (request.changes lib e.maxHoldTtlMs) (Engine.opened clock ttl events order).store.tables := by
  have h := durable.healthy
  have reads : ∀ {e' : Engine}, e'.Durable → (∀ ev ∈ e'.log, ev.serialize.length ≤ Wal.maxWalRecordBytes) →
      Wal.replay k (some (Wal.fileOf k e'.log)) = .ok e'.log := by
    intro e' durable short
    exact Wal.replay_fileOf decodes fun ev inside => (durable.limits ev inside).loggable (short ev inside)
  cases crashed with
  | @appending _ appends n behind =>
      obtain ⟨records, log, persists⟩ := serve_persists h lib limit appends
      have limits : ∀ ev ∈ e.log ++ records, ev.WithinLimits := List.forall_mem_append.mpr ⟨durable.limits, persists.limits⟩
      rw [log] at short ⊢
      obtain ⟨flushed, lost, split, replayed⟩ := Wal.replay_append_cut decodes
        (fun ev inside => (limits ev inside).loggable (short ev (List.mem_append_right _ inside))) behind
      obtain ⟨live, kept, consistent, cut, tables, restores⟩ := persists.cut flushed lost split
      refine ⟨_, replayed, fun clock ttl order => ⟨kept, cut, ?_⟩⟩
      rw [opened_tables (by rw [replayed_append]; exact restores _ durable.recoverable) consistent, tables]
  | early =>
      refine ⟨_, reads durable fun ev inside => short ev (List.mem_append_left _ inside), fun clock ttl order => ?_⟩
      exact ⟨[], .nothing _, opened_tables durable.recoverable h.consistent clock ttl order⟩
  | @compacted order lists =>
      obtain ⟨after, short⟩ := compact_durable h lists
      refine ⟨_, reads after short, fun clock ttl order' => ⟨[], .nothing _, ?_⟩⟩
      rw [opened_tables after.recoverable after.healthy.consistent, compactWal_eq h.running]
      rfl
  | @collected now retentionMs order lists =>
      have healthy : (e.gcPastIntervals now retentionMs).Healthy := next_healthy h (.gc now retentionMs)
      obtain ⟨after, short⟩ := compact_durable healthy lists
      refine ⟨_, reads after short, fun clock ttl order' =>
        ⟨[.collect now (satSub now retentionMs)], .whole _ (.nothing _), ?_⟩⟩
      rw [opened_tables after.recoverable after.healthy.consistent, compactWal_eq healthy.running]
      exact gc_tables h now retentionMs

/-- Whatever was asked for before, and wherever the crash comes, the next start has the tables that the answers
    told of, and of the request that was cut off a part of its changes. -/
theorem survives_crash (decodes : k.Decodes) (durable : e.Durable) {requests : List TenantRequest}
    (orderly : Orderly lib limit e requests) {request : TenantRequest} {file : List UInt8}
    (crashed : Crashed k lib limit (converse (serve lib limit) e requests).2 request file)
    (short : ∀ ev ∈ (converse (serve lib limit) e requests).2.log ++
      (serve lib limit (converse (serve lib limit) e requests).2 request).2.log,
      ev.serialize.length ≤ Wal.maxWalRecordBytes) :
    ∃ t, Specified (Tables.Serves lib e.maxHoldTtlMs) e.store.tables requests (converse (serve lib limit) e requests).1 t ∧
      ∃ events, Wal.replay k (some file) = .ok events ∧ ∀ clock ttl order,
        t.Partly (request.changes lib e.maxHoldTtlMs) (Engine.opened clock ttl events order).store.tables := by
  obtain ⟨after, ttl⟩ := orderly.durable durable
  refine ⟨_, converse_specified (fun e => e.store.tables) (Keeps e.maxHoldTtlMs) (serve_serves lib limit) requests
    ⟨durable.healthy, rfl⟩, ?_⟩
  rw [← ttl]
  exact crashed.partly decodes after short

end

end Engine

def createsRoom : TenantRequest := .statement 5 (.write (insertInto "resources" ["id"] [firstId]))

/-- Two bookings at once. -/
def booksTwice : TenantRequest :=
  .statement 6 (.write (.insert ⟨some [.identifier "bookings"], ["id", "resource_id", "start", "end"],
    some (.values [[secondId, firstId, .value (.number "10" false), .value (.number "20" false)],
      [firstId, firstId, .value (.number "30" false), .value (.number "40" false)]]), false, false⟩))

/-- The file is cut behind the first of them. -/
theorem booksTwice_survives :
    ∃ t, Specified (Tables.Serves plainWrites (Engine.start 0 1000).maxHoldTtlMs) (Engine.start 0 1000).store.tables [createsRoom]
        (converse (Engine.serve plainWrites 3) (Engine.start 0 1000) [createsRoom]).1 t ∧
      ∃ events, Wal.replay .bundled (some ((Wal.fileOf .bundled
          ((converse (Engine.serve plainWrites 3) (Engine.start 0 1000) [createsRoom]).2.serve plainWrites 3 booksTwice).2.log).take
            200)) = .ok events ∧
        ∀ clock ttl order, t.Partly (booksTwice.changes plainWrites (Engine.start 0 1000).maxHoldTtlMs)
          (Engine.opened clock ttl events order).store.tables := by
  have first : createsRoom.Appends := trivial
  have second : booksTwice.Appends := trivial
  exact Engine.survives_crash bundled_decodes (Engine.start_durable 0 1000) (.appends first (.nil _))
    (.appending second (by decide +kernel)) (by decide +kernel)

end Deltat
