import Deltat.RecordLimits
import Deltat.Replay

/-! # Replay rebuilds the live state

The live paths and replay treat creates, deletes and commits in different code, and a
compaction rewrites the log as other events. In every run without collection the log's replay
still gives each resource its fields and its intervals, in some order, and the hierarchy.
-/

namespace Deltat

open Lib Lib.Outcome

/-! ## One resource -/

/-- A resource as replay rebuilds it: the same fields, the same intervals in some order. -/
structure ResourceState.Restores (rs live : ResourceState) : Prop where
  id : rs.id = live.id
  parentId : rs.parentId = live.parentId
  name : rs.name = live.name
  capacity : rs.capacity = live.capacity
  bufferAfter : rs.bufferAfter = live.bufferAfter
  intervals : rs.intervals.Perm live.intervals

namespace ResourceState

variable {rs live : ResourceState}

theorem Restores.refl (rs : ResourceState) : rs.Restores rs := ⟨rfl, rfl, rfl, rfl, rfl, .refl _⟩

theorem setFields_restores (same : rs.Restores live) (ev : Event) :
    (ev.setFields rs).Restores (ev.setFields live) := by
  obtain ⟨id, parentId, name, capacity, bufferAfter, intervals⟩ := same
  cases ev with
  | resourceUpdated x n c b =>
      exact ⟨id, parentId, congrArg (n.getD ·) name, congrArg (c.getD ·) capacity, congrArg (b.getD ·) bufferAfter,
        intervals⟩
  | resourceCreated | resourceDeleted | ruleAdded | ruleUpdated | ruleRemoved | holdPlaced | holdReleased
  | bookingConfirmed | bookingCancelled | holdsCommitted =>
      exact ⟨id, parentId, name, capacity, bufferAfter, intervals⟩

/-- A change does the same to both, whatever the order of their intervals. -/
theorem Restores.applySingle (same : rs.Restores live) (nodup : (live.intervals.map (·.id)).Nodup) (ev : Event) :
    (rs.applySingle ev).Restores (live.applySingle ev) := by
  have nodup' : (rs.intervals.map (·.id)).Nodup := (same.intervals.map (·.id)).nodup_iff.mpr nodup
  have fields := setFields_restores same ev
  obtain ⟨capacity, bufferAfter, name⟩ := applySingle_fields rs ev
  obtain ⟨capacity', bufferAfter', name'⟩ := applySingle_fields live ev
  refine ⟨?_, ?_, name.trans (fields.name.trans name'.symm), capacity.trans (fields.capacity.trans capacity'.symm),
    bufferAfter.trans (fields.bufferAfter.trans bufferAfter'.symm), ?_⟩
  · rw [applySingle_id, applySingle_id, same.id]
  · rw [applySingle_parentId, applySingle_parentId, same.parentId]
  · exact (applySingle_perm nodup' ev).trans
      (((same.intervals.filter _).append_left _).trans (applySingle_perm nodup ev).symm)

end ResourceState

/-! ## The whole store -/

/-- A store that replay rebuilt, against the live one. -/
structure InMemoryStore.Restores (s live : InMemoryStore) : Prop where
  linked : s.Linked
  table : ∀ r, Option.Rel ResourceState.Restores (s.getResource r) (live.getResource r)

namespace Engine

variable {e e' : Engine} {s : InMemoryStore}

theorem empty_restores (clock ttl : Ms) : InMemoryStore.empty.Restores (start clock ttl).store :=
  ⟨InMemoryStore.empty_linked, fun _ => .none⟩

/-- A relation that a change keeps is kept by independent changes that the live resource accepts. -/
theorem foldl_related {R : ResourceState → ResourceState → Prop}
    (step : ∀ {rs live : ResourceState} {ev : Event}, R rs live → live.WellFormed → live.Accepts ev →
      R (rs.applySingle ev) (live.applySingle ev))
    {changes : List Event} (apart : changes.Pairwise Event.Independent) :
    ∀ {rs live : ResourceState}, R rs live → live.WellFormed → (∀ ev ∈ changes, live.Accepts ev) →
      R (changes.foldl ResourceState.applySingle rs) (changes.foldl ResourceState.applySingle live) := by
  induction changes with
  | nil => exact fun same _ _ => same
  | cons ev rest ih =>
      intro rs live same wf accepts
      obtain ⟨first, others⟩ := List.pairwise_cons.mp apart
      have accepted := accepts ev List.mem_cons_self
      exact ih others (step same wf accepted) (ResourceState.applySingle_wellFormed wf accepted)
        fun b inRest => (accepts b (List.mem_cons_of_mem _ inRest)).after wf (first b inRest)

/-- Replaying an admitted write keeps every relation between the two tables that a change keeps
    and that holds of a new resource. -/
theorem Wrote.related {R : ResourceState → ResourceState → Prop}
    (step : ∀ {rs live : ResourceState} {ev : Event}, R rs live → live.WellFormed → live.Accepts ev →
      R (rs.applySingle ev) (live.applySingle ev))
    (fresh : ∀ rs, R rs rs) (h : e.Healthy) {records : List Event} (admits : e.Admits records)
    (wrote : e.Wrote e' records) {table : Ulid → Option ResourceState}
    (same : ∀ r, Option.Rel R (table r) (e.store.getResource r)) (r : Ulid) :
    Option.Rel R (records.foldl (fun entry ev => ev.stepOn r entry) (table r)) (e'.store.getResource r) := by
  have before := same r
  rw [wrote.table]
  rcases admits.kinds with ⟨id, parentId, name, capacity, bufferAfter, rfl, _⟩ | ⟨id, rs, rfl, _⟩ | changes
  · simp only [List.foldl_cons, List.foldl_nil, Event.stepOn]
    split
    · exact .some (fresh _)
    · exact before
  · simp only [List.foldl_cons, List.foldl_nil, Event.stepOn]
    split
    · exact .none
    · exact before
  · rw [Event.foldl_stepOn r changes, Event.foldl_stepOn r changes]
    cases present : e.store.getResource r with
    | none =>
        rw [present] at before
        rw [rel_none before]
        exact .none
    | some live =>
        rw [present] at before
        obtain ⟨rs, rebuilt, both⟩ := rel_some before
        rw [rebuilt]
        obtain ⟨accepts, apart⟩ := admits.accepted h changes present
        exact .some (foldl_related step apart both (h.consistent.wellFormed r live present) accepts)

/-- Replaying an admitted write keeps the hierarchy of a store that has no resource more. -/
theorem Admits.linked {records : List Event} (admits : e.Admits records) (linked : s.Linked)
    (absent : ∀ r, e.store.getResource r = none → s.getResource r = none) :
    (records.foldl InMemoryStore.replayEvent s).Linked := by
  rcases admits.kinds with ⟨id, parentId, name, capacity, bufferAfter, rfl, passed⟩ | ⟨id, rs, rfl, _⟩ | changes
  · obtain ⟨_, notYet, _⟩ := checkCreate_ok passed
    exact linked.create (absent id notYet) parentId name capacity bufferAfter
  · exact linked.resourceDeleted id
  · exact linked.foldl_changes changes

/-- Replaying an admitted write does to the rebuilt store what the write did to the live one. -/
theorem Wrote.restores (h : e.Healthy) {records : List Event} (admits : e.Admits records)
    (wrote : e.Wrote e' records) (same : s.Restores e.store) :
    (records.foldl InMemoryStore.replayEvent s).Restores e'.store := by
  refine ⟨admits.linked same.linked fun r absent => ?_, fun r => ?_⟩
  · have before := same.table r
    rw [absent] at before
    exact rel_none before
  · rw [InMemoryStore.foldl_replayEvent_getResource r records same.linked.named]
    exact wrote.related (fun both wf _ => both.applySingle wf.idsNodup _) ResourceState.Restores.refl h admits
      same.table r

end Engine

/-! ## A compacted log -/

namespace Compaction

theorem applySingle_toEvent (rs : ResourceState) (r : Ulid) (i : Interval) :
    rs.applySingle (i.toEvent r) = rs.insertInterval i := by
  obtain ⟨id, span, kind⟩ := i
  cases kind <;> rfl

/-- The events of a list of intervals put each of them back. -/
theorem foldl_toEvent (r : Ulid) (intervals : List Interval) : ∀ rs : ResourceState,
    ((intervals.map (·.toEvent r)).foldl ResourceState.applySingle rs).Restores
      { rs with intervals := intervals ++ rs.intervals } := by
  induction intervals with
  | nil => exact fun rs => .refl rs
  | cons i rest ih =>
      intro rs
      obtain ⟨id, parentId, name, capacity, bufferAfter, perm⟩ := ih (rs.insertInterval i)
      have moved : (rest ++ (rs.insertInterval i).intervals).Perm (i :: rest ++ rs.intervals) :=
        ((ResourceState.insertInterval_perm i).append_left rest).trans List.perm_middle
      rw [List.map_cons, List.foldl_cons, applySingle_toEvent]
      exact ⟨id, parentId, name, capacity, bufferAfter, perm.trans moved⟩

theorem toEvent_routed (r : Ulid) (i : Interval) : (i.toEvent r).resourceId? = some r := by
  obtain ⟨id, span, kind⟩ := i
  cases kind <;> rfl

theorem toEvent_change (r : Ulid) (i : Interval) : (i.toEvent r).isChange := by
  obtain ⟨id, span, kind⟩ := i
  cases kind <;> rfl

/-- The events of a snapshot rebuild its resource and concern no other. -/
theorem foldl_resourceEvents (snap : ResourceState) (r : Ulid) (entry : Option ResourceState) :
    (resourceEvents snap).foldl (fun entry ev => ev.stepOn r entry) entry =
      if snap.id = r then some ((snap.intervals.map (·.toEvent snap.id)).foldl ResourceState.applySingle
        (.new snap.id snap.parentId snap.name snap.capacity snap.bufferAfter))
      else entry := by
  have changes : ∀ ev ∈ snap.intervals.map (·.toEvent snap.id), ev.isChange :=
    List.forall_mem_map.mpr fun i _ => toEvent_change snap.id i
  have single : (snap.intervals.map (·.toEvent snap.id)).flatMap Event.perResource =
      snap.intervals.map (·.toEvent snap.id) :=
    Engine.perResource_batch fun i => Event.perResource_single (toEvent_routed snap.id i)
  rw [resourceEvents, List.foldl_cons, Event.foldl_stepOn r changes, single, List.filter_map]
  by_cases own : snap.id = r
  · simp [Event.stepOn, own, Function.comp_def, toEvent_routed]
  · simp [Event.stepOn, own, Function.comp_def, toEvent_routed]

theorem foldl_snapshots_absent {snaps : List ResourceState} {r : Ulid} (absent : r ∉ snaps.map (·.id)) :
    ∀ entry : Option ResourceState,
      (snaps.flatMap resourceEvents).foldl (fun entry ev => ev.stepOn r entry) entry = entry := by
  induction snaps with
  | nil => exact fun _ => rfl
  | cons snap rest ih =>
      intro entry
      rw [List.map_cons, List.mem_cons, not_or] at absent
      rw [List.flatMap_cons, List.foldl_append, foldl_resourceEvents, if_neg (Ne.symm absent.1), ih absent.2]

/-- Snapshots of different resources rebuild each of them. -/
theorem foldl_snapshots {snaps : List ResourceState} (nodup : (snaps.map (·.id)).Nodup) {snap : ResourceState}
    (member : snap ∈ snaps) (entry : Option ResourceState) :
    ∃ rs, (snaps.flatMap resourceEvents).foldl (fun entry ev => ev.stepOn snap.id entry) entry = some rs ∧
      rs.Restores snap := by
  induction snaps generalizing entry with
  | nil => cases member
  | cons first rest ih =>
      rw [List.map_cons, List.nodup_cons] at nodup
      rw [List.flatMap_cons, List.foldl_append, foldl_resourceEvents]
      rcases List.mem_cons.mp member with rfl | later
      · rw [if_pos rfl, foldl_snapshots_absent nodup.1]
        have restored := foldl_toEvent snap.id snap.intervals
          (.new snap.id snap.parentId snap.name snap.capacity snap.bufferAfter)
        refine ⟨_, rfl, restored.id, restored.parentId, restored.name, restored.capacity, restored.bufferAfter, ?_⟩
        exact restored.intervals.trans (by simp [ResourceState.new])
      · exact ih nodup.2 later _

theorem linked_snapshots {snaps : List ResourceState} (nodup : (snaps.map (·.id)).Nodup) :
    ∀ {s : InMemoryStore}, s.Linked → (∀ snap ∈ snaps, s.getResource snap.id = none) →
      ((snaps.flatMap resourceEvents).foldl InMemoryStore.replayEvent s).Linked := by
  induction snaps with
  | nil => exact fun l _ => l
  | cons snap rest ih =>
      intro s l absent
      rw [List.map_cons, List.nodup_cons] at nodup
      rw [List.flatMap_cons, List.foldl_append]
      refine ih nodup.2 ?_ fun other later => ?_
      · have created := l.create (absent snap List.mem_cons_self) snap.parentId snap.name snap.capacity snap.bufferAfter
        exact created.foldl_changes (List.forall_mem_map.mpr fun i _ => toEvent_change snap.id i)
      · have apart : snap.id ≠ other.id := fun same => nodup.1 (same ▸ List.mem_map_of_mem later)
        rw [InMemoryStore.foldl_replayEvent_getResource _ _ l.named, foldl_resourceEvents, if_neg apart]
        exact absent other (List.mem_cons_of_mem _ later)

/-- A log of snapshots of a table with distinct ids restores the table. -/
theorem replayed_snapshotEvents {live : InMemoryStore} {snaps : List ResourceState}
    (nodup : (snaps.map (·.id)).Nodup) (table : ∀ r rs, live.getResource r = some rs ↔ rs ∈ snaps ∧ rs.id = r) :
    (InMemoryStore.replayed (snapshotEvents snaps)).Restores live := by
  obtain ⟨sorted, perm, events⟩ : ∃ sorted : List ResourceState, sorted.Perm snaps ∧
      snapshotEvents snaps = sorted.flatMap resourceEvents := ⟨_, List.perm_insertionSort _ _, rfl⟩
  rw [events]
  have nodup' := (perm.map (·.id)).nodup_iff.mpr nodup
  refine ⟨linked_snapshots nodup' InMemoryStore.empty_linked fun _ _ => rfl, fun r => ?_⟩
  rw [InMemoryStore.replayed_getResource]
  cases present : live.getResource r with
  | none =>
      rw [foldl_snapshots_absent]
      · exact .none
      · intro inside
        obtain ⟨rs, member, rfl⟩ := List.mem_map.mp inside
        rw [(table rs.id rs).mpr ⟨perm.mem_iff.mp member, rfl⟩] at present
        cases present
  | some rs =>
      obtain ⟨member, rfl⟩ := (table r rs).mp present
      obtain ⟨rebuilt, same, restores⟩ := foldl_snapshots nodup' (perm.mem_iff.mpr member) none
      rw [same]
      exact .some restores

end Compaction

/-! ## Runs -/

namespace Engine

variable {e e' : Engine}

theorem named_of_healthy (h : e.Healthy) : e.store.Named := h.consistent.ids

/-- The snapshots that a compaction takes are the table. -/
theorem snapshots_of_table (ids : e.store.Named) {order : List Ulid} (lists : order.Perm e.store.resourceIds) :
    ((order.filterMap e.store.getResource).map (·.id)).Nodup ∧
      ∀ r rs, e.store.getResource r = some rs ↔ rs ∈ order.filterMap e.store.getResource ∧ rs.id = r := by
  have nodup : order.Nodup := lists.nodup_iff.mpr (resourceIds_nodup e.store)
  refine ⟨?_, fun r rs => ⟨fun present => ⟨?_, ids r rs present⟩, ?_⟩⟩
  · refine nodup.sublist ?_
    clear lists nodup
    induction order with
    | nil => exact .slnil
    | cons r rest ih =>
        cases present : e.store.getResource r with
        | none => rw [List.filterMap_cons_none present]; exact ih.cons r
        | some rs => rw [List.filterMap_cons_some present, List.map_cons, ids r rs present]; exact ih.cons_cons r
  · have listed : r ∈ order := lists.mem_iff.mpr (mem_resourceIds.mpr (by rw [present]; rfl))
    exact List.mem_filterMap.mpr ⟨r, listed, present⟩
  · rintro ⟨member, rfl⟩
    obtain ⟨q, _, present⟩ := List.mem_filterMap.mp member
    rwa [ids q rs present]

/-- An operation appends records within the limits. -/
theorem next_op_limits (h : e.Healthy) (limits : ∀ ev ∈ e.log, ev.WithinLimits) (o : Op) :
    ∀ ev ∈ (e.next (.op o)).log, ev.WithinLimits :=
  next_op_invariant (I := fun e => ∀ ev ∈ e.log, ev.WithinLimits) h limits
    fun _ _ _ h before _ admits wrote ev inside => by
      rw [wrote.log, List.mem_append] at inside
      exact inside.elim (before ev) (admits.withinLimits h ev)

/-- The log's replay against the live store. -/
def Recoverable (e : Engine) : Prop := (InMemoryStore.replayed e.log).Restores e.store

theorem Recoverable.wrote (h : e.Healthy) (kept : e.Recoverable) {records : List Event} (admits : e.Admits records)
    (wrote : e.Wrote e' records) : e'.Recoverable := by
  unfold Recoverable InMemoryStore.replayed
  rw [wrote.log, List.foldl_append]
  exact wrote.restores h admits kept

/-- Compaction writes a log that restores the same store. -/
theorem compactWal_recoverable (h : e.Healthy) {order : List Ulid} (lists : order.Perm e.store.resourceIds) :
    (e.compactWal order).Recoverable := by
  obtain ⟨nodup, table⟩ := snapshots_of_table (named_of_healthy h) lists
  rw [compactWal_eq h.running]
  exact Compaction.replayed_snapshotEvents nodup table

end Engine

/-! ## A run together with its log file -/

theorem Event.WithinLimits.loggable {ev : Event} (limits : ev.WithinLimits)
    (short : ev.serialize.length ≤ Wal.maxWalRecordBytes) : Wal.Loggable ev :=
  ⟨limits.representable, limits.spansValid, short⟩

namespace Wal

/-- The engines and logs of sequential runs from no log at all: operations whose records are
    each short enough to be read back, and compactions between them. -/
inductive Follows (k : Crates) : Engine → Wal → Prop where
  | opened {wal : Wal} (clock maxHoldTtlMs : Ms) : «open» k ⟨none, none⟩ = .ok wal →
      Follows k (Engine.start clock maxHoldTtlMs) wal
  | tick {e : Engine} {wal : Wal} (ms : Nat) : Follows k e wal → Follows k (e.next (.tick ms)) wal
  -- The records of an operation reach the log in one or several flushes.
  | op {e : Engine} {wal wal' : Wal} (o : Op) (batches : List (List Event)) : Follows k e wal →
      (e.next (.op o)).log = e.log ++ batches.flatten →
      (∀ ev ∈ batches.flatten, ev.serialize.length ≤ maxWalRecordBytes) →
      batches.foldlM (fun wal batch => appendAndSync k batch wal) wal = .ok wal' →
      Follows k (e.next (.op o)) wal'
  | compact {e : Engine} {wal : Wal} (order : List Ulid) : Follows k e wal → e.Possible (.compact order) →
      Follows k (e.next (.compact order)) (compact k (e.next (.compact order)).log wal)

variable {k : Crates} {e : Engine} {wal : Wal}

/-- What such a run keeps: the file is that of the engine's log, every record of which can be
    read back, and the log restores the store. -/
structure Faithful (k : Crates) (e : Engine) (wal : Wal) : Prop where
  healthy : e.Healthy
  recoverable : e.Recoverable
  limits : ∀ ev ∈ e.log, ev.WithinLimits ∧ ev.serialize.length ≤ maxWalRecordBytes
  file : ∃ staged count, wal = ⟨⟨some (fileOf k e.log), staged⟩, [], count, false⟩

theorem open_new : «open» k ⟨none, none⟩ = .ok ⟨⟨some (fileOf k []), none⟩, [], 0, false⟩ := rfl

theorem compact_file (events : List Event) (wal : Wal) :
    compact k events wal = ⟨⟨some (fileOf k events), none⟩, [], 0, false⟩ := rfl

theorem Follows.faithful (run : Follows k e wal) : Faithful k e wal := by
  induction run with
  | opened clock ttl opened =>
      refine ⟨Engine.start_healthy clock ttl, Engine.empty_restores clock ttl, fun _ inside => (List.not_mem_nil inside).elim,
        none, 0, ?_⟩
      exact (Except.ok.inj (open_new.symm.trans opened)).symm
  | tick ms _ ih => exact ⟨Engine.next_healthy ih.healthy (.tick ms), ih.recoverable, ih.limits, ih.file⟩
  | @op e wal wal' o batches _ log short appended ih =>
      have limits := Engine.next_op_limits ih.healthy (fun ev inside => (ih.limits ev inside).1) o
      refine ⟨Engine.next_healthy ih.healthy (.op o), ?_, fun ev inside => ⟨limits ev inside, ?_⟩, ?_⟩
      · exact Engine.next_op_invariant (I := Engine.Recoverable) ih.healthy ih.recoverable
          fun _ _ _ h before _ admits wrote => before.wrote h admits wrote
      · rw [log, List.mem_append] at inside
        exact inside.elim (fun old => (ih.limits ev old).2) (short ev)
      · obtain ⟨staged, count, rfl⟩ := ih.file
        obtain ⟨count', later⟩ := appendBatches_ok (k := k) e.log staged count batches
        rw [log]
        exact ⟨staged, count', Except.ok.inj (appended.symm.trans later)⟩
  | @compact e wal order _ possible ih =>
      refine ⟨Engine.next_healthy ih.healthy (.compact order), Engine.compactWal_recoverable ih.healthy possible, ?_,
        none, 0, compact_file _ wal⟩
      change ∀ ev ∈ (e.compactWal order).log, _
      rw [Engine.compactWal_eq ih.healthy.running]
      exact Engine.snapshotEvents_limits ih.healthy order

/-- Replay rebuilds the live state. After every such run the log file is read back, and the
    engine built on it has the live resources with the same fields and intervals, and the same
    parents and children, in whatever order the sweep goes through the table. -/
theorem replay_rebuilds (decodes : k.Decodes) (run : Follows k e wal) :
    ∃ events, replay k wal.disk.file = .ok events ∧ ∀ order : List Ulid,
      (∀ r, Option.Rel ResourceState.Restores ((InMemoryStore.rebuilt events order).getResource r)
        (e.store.getResource r)) ∧
      (∀ c, (InMemoryStore.rebuilt events order).getParent c = e.store.getParent c) ∧
      ∀ p, ((InMemoryStore.rebuilt events order).getChildren p).Perm (e.store.getChildren p) := by
  obtain ⟨healthy, ⟨linked, table⟩, limits, staged, count, rfl⟩ := run.faithful
  refine ⟨e.log, replay_fileOf decodes fun ev inside => (limits ev inside).1.loggable (limits ev inside).2, fun order => ?_⟩
  have consistent := healthy.consistent
  have parents : ∀ c, (InMemoryStore.replayed e.log).getParent c = e.store.getParent c := by
    intro c
    rw [linked.parents, consistent.parents]
    have related := table c
    cases present : e.store.getResource c with
    | none =>
        rw [present] at related
        rw [rel_none related]
    | some live =>
        rw [present] at related
        obtain ⟨rs, rebuilt, same⟩ := rel_some related
        rw [rebuilt]
        exact same.parentId
  have nothing : InMemoryStore.rebuilt e.log order = InMemoryStore.replayed e.log := by
    refine InMemoryStore.foldl_detachOrphan (fun c rs p present under => ?_) order
    have parent := (linked.parents c).symm.trans (parents c)
    rw [present, consistent.parents] at parent
    obtain ⟨live, found, hasParent⟩ := Option.bind_eq_some_iff.mp (parent.symm.trans under)
    obtain ⟨rs', inTable⟩ := Option.isSome_iff_exists.mp (consistent.parentExists c live p found hasParent)
    have related := table p
    rw [inTable] at related
    obtain ⟨rs'', rebuilt, _⟩ := rel_some related
    rw [rebuilt]
    rfl
  rw [nothing]
  refine ⟨table, parents, fun p => ?_⟩
  refine (List.perm_ext_iff_of_nodup (linked.childrenNodup p) (consistent.childrenNodup p)).mpr fun c => ?_
  rw [linked.children, parents, consistent.parents, consistent.children, Option.bind_eq_some_iff]

/-- A resource created and booked. -/
theorem bookedOnce_follows : ∃ wal, Follows .bundled Engine.bookedOnce wal := by
  obtain ⟨count, created⟩ := appendBatches_ok (k := .bundled) [] none 0 [[.resourceCreated 1 none none 1 (some 5)]]
  obtain ⟨count', booked⟩ := appendBatches_ok (k := .bundled) [.resourceCreated 1 none none 1 (some 5)] none count
    [[.bookingConfirmed 2 1 ⟨10, 20⟩ none]]
  exact ⟨_, .op _ _ (.op _ _ (.opened 0 1000 open_new) rfl (by decide) created) rfl (by decide) booked⟩

/-- The same, and the log compacted. -/
theorem compacted_booking_rebuilt : ∃ wal, Follows .bundled (Engine.bookedOnce.next (.compact [1])) wal ∧
    ∃ events, replay .bundled wal.disk.file = .ok events ∧ ∀ order : List Ulid,
      (∀ r, Option.Rel ResourceState.Restores ((InMemoryStore.rebuilt events order).getResource r)
        ((Engine.bookedOnce.next (.compact [1])).store.getResource r)) ∧
      (∀ c, (InMemoryStore.rebuilt events order).getParent c =
        (Engine.bookedOnce.next (.compact [1])).store.getParent c) ∧
      ∀ p, ((InMemoryStore.rebuilt events order).getChildren p).Perm
        ((Engine.bookedOnce.next (.compact [1])).store.getChildren p) := by
  obtain ⟨wal, run⟩ := bookedOnce_follows
  have compacted := run.compact [1] (List.Perm.refl [1])
  exact ⟨_, compacted, replay_rebuilds bundled_decodes compacted⟩

end Wal

end Deltat
