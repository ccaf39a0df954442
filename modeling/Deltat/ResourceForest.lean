import Deltat.Lib.Forest
import Deltat.Notices
import Deltat.OrphanRepair
import Deltat.Restarts
import Deltat.WriterQueue

/-! # The hierarchy while everything runs

The parent of a resource stands in its state, in the parent index, in its parent's list of
children and in the log. A create or a delete changes them on both sides of its flush, while
requests and compactions go on.
-/

namespace Deltat

open Lib Machine Limits

/-- The parents that are recorded behind a record. -/
def Event.entriesAfter (entries : Ulid → Option (Option Ulid)) : Event → Ulid → Option (Option Ulid)
  | resourceCreated id parentId _ _ _ => Function.update entries id (some parentId)
  | resourceDeleted id => Function.update entries id none
  | _ => entries

theorem Event.perResource_isChange {record change : Event} (isChange : record.isChange)
    (step : change ∈ record.perResource) : change.isChange := by
  cases record with
  | holdsCommitted commits =>
      obtain ⟨c, _, isEvent⟩ := List.mem_flatMap.mp step
      simp only [HoldCommit.events, List.mem_cons, List.not_mem_nil, or_false] at isEvent
      rcases isEvent with rfl | rfl <;> rfl
  | _ =>
      cases List.mem_singleton.mp step
      exact isChange

namespace InMemoryStore

variable {s s' : InMemoryStore} {leaving : Option Ulid}

/-- The resources form a forest, and the table and both indexes agree on it. A resource that is
    leaving is no longer in its parent's list. -/
structure WellFormedForest (s : InMemoryStore) (leaving : Option Ulid) : Prop where
  parentExists : ∀ c rs p, s.getResource c = some rs → rs.parentId = some p → (s.getResource p).isSome
  acyclic : Cycles.Acyclic fun c p => (s.getResource c).bind (·.parentId) = some p
  shallow : s.Shallow
  parents : ∀ c, s.getParent c = (s.getResource c).bind (·.parentId)
  children : ∀ p c, c ∈ s.getChildren p ↔ s.getParent c = some p ∧ leaving ≠ some c
  childrenNodup : ∀ p, (s.getChildren p).Nodup

/-- The same by the entries of the table. -/
structure Planted (s : InMemoryStore) (leaving : Option Ulid) : Prop where
  named : s.Named
  bounded : Forest.Bounded maxHierarchyDepth s.parentEntry
  parents : ∀ c, s.getParent c = (s.parentEntry c).join
  children : ∀ p c, c ∈ s.getChildren p ↔ s.parentEntry c = some (some p) ∧ leaving ≠ some c
  childrenNodup : ∀ p, (s.getChildren p).Nodup

theorem join_eq_some {entry : Option (Option Ulid)} {p : Ulid} : entry.join = some p ↔ entry = some (some p) := by
  cases entry <;> simp

theorem parentEntry_join (s : InMemoryStore) (c : Ulid) :
    (s.parentEntry c).join = (s.getResource c).bind (·.parentId) := by
  rw [parentEntry]
  cases s.getResource c <;> rfl

/-- The chain of a resource's ancestors is as long as the forest has it. -/
theorem ancestors_of_depth (parents : ∀ c, s.getParent c = (s.parentEntry c).join) {r : Ulid} {n : Nat}
    (depth : Forest.Depth s.parentEntry r n) : ∃ line, s.Ancestors r line ∧ line.length = n := by
  induction depth with
  | root top => exact ⟨[], .root (by rw [parents, top]; rfl), rfl⟩
  | @under r p n child above ih =>
      obtain ⟨line, lineage, length⟩ := ih
      have there := above.node
      rw [isSome_parentEntry] at there
      obtain ⟨parent, present⟩ := Option.isSome_iff_exists.mp there
      exact ⟨parent :: line, .under (by rw [parents, child]; rfl) present lineage, congrArg Nat.succ length⟩

theorem depth_of_ancestors (parents : ∀ c, s.getParent c = (s.parentEntry c).join) {r : Ulid} {line : List ResourceState}
    (lineage : s.Ancestors r line) (present : (s.parentEntry r).isSome) : Forest.Depth s.parentEntry r line.length := by
  induction lineage with
  | @root r top =>
      rw [parents] at top
      obtain ⟨entry, found⟩ := Option.isSome_iff_exists.mp present
      rw [found] at top
      apply Forest.Depth.root
      rw [found]
      exact congrArg some top
  | @under r p parent line linked above _ ih =>
      rw [parents, join_eq_some] at linked
      exact .under linked (ih (by rw [isSome_parentEntry, above]; rfl))

theorem Planted.wellFormedForest (planted : s.Planted leaving) : s.WellFormedForest leaving where
  parentExists c rs p present under := by
    rw [← isSome_parentEntry]
    apply planted.bounded.parent (a := c)
    rw [parentEntry, present]
    exact congrArg some under
  acyclic := by
    simp only [← parentEntry_join, join_eq_some]
    exact planted.bounded.acyclic
  shallow r rs present := by
    obtain ⟨n, within, depth⟩ := planted.bounded r (by rw [isSome_parentEntry, present]; rfl)
    obtain ⟨line, lineage, rfl⟩ := ancestors_of_depth planted.parents depth
    exact ⟨line, lineage, within⟩
  parents c := by rw [planted.parents, parentEntry_join]
  children p c := by rw [planted.children, planted.parents, join_eq_some]
  childrenNodup := planted.childrenNodup

/-- Nothing above a resource is the resource itself. -/
theorem not_above (bounded : Forest.Bounded maxHierarchyDepth s.parentEntry)
    (parents : ∀ c, s.getParent c = (s.parentEntry c).join) (r : Ulid) (fuel : Nat) :
    r ∉ NotifyingEngine.successors s fuel ((s.getResource r).bind (·.parentId)) := by
  have up : ∀ fuel start, (∀ p, start = some p → Relation.TransGen (fun c p => s.parentEntry c = some (some p)) r p) →
      ∀ x ∈ NotifyingEngine.successors s fuel start, Relation.TransGen (fun c p => s.parentEntry c = some (some p)) r x := by
    intro fuel
    induction fuel with
    | zero =>
        intro start _ x inside
        cases start <;> cases inside
    | succ fuel ih =>
        intro start above x inside
        cases start with
        | none => cases inside
        | some p =>
            rcases List.mem_cons.mp inside with rfl | further
            · exact above _ rfl
            · apply ih (s.getParent p) (fun q next => ?_) x further
              rw [parents, join_eq_some] at next
              exact (above p rfl).tail next
  intro inside
  apply bounded.acyclic r
  apply up fuel _ (fun p under => ?_) r inside
  rw [← parentEntry_join, join_eq_some] at under
  exact .single under

theorem Consistent.linked (c : s.Consistent) : s.Linked where
  named := c.ids
  parents := c.parents
  children p x := by rw [c.children, c.parents, Option.bind_eq_some_iff]
  childrenNodup := c.childrenNodup

/-- Where both indexes agree with the table, only the depths are left to know. -/
theorem Linked.planted (linked : s.Linked) (bounded : Forest.Bounded maxHierarchyDepth s.parentEntry) :
    s.Planted none where
  named := linked.named
  bounded := bounded
  parents := linked.getParent_eq
  children p c := by simp [linked.children, linked.getParent_eq, join_eq_some]
  childrenNodup := linked.childrenNodup

theorem sameTree_parentEntry (same : Engine.SameTree s s') : s'.parentEntry = s.parentEntry := by
  funext c
  have entry := congrArg (Option.map Prod.snd) (same.shape c)
  rwa [Option.map_map, Option.map_map] at entry

theorem Planted.same (planted : s.Planted leaving) (same : Engine.SameTree s s') : s'.Planted leaving := by
  have entries := sameTree_parentEntry same
  refine ⟨planted.named.of_shape same.shape, ?_, fun c => ?_, fun p c => ?_, fun p => ?_⟩
  · rw [entries]
    exact planted.bounded
  · rw [(same.links c).1, entries]
    exact planted.parents c
  · rw [(same.links p).2, entries]
    exact planted.children p c
  · rw [(same.links p).2]
    exact planted.childrenNodup p

/-- A create that its checks let through. -/
theorem Planted.create (planted : s.Planted none) {id : Ulid} {parentId : Option Ulid} (absent : s.parentEntry id = none)
    (room : ∀ p, parentId = some p → ∃ n < maxHierarchyDepth, Forest.Depth s.parentEntry p n) (name : Option String)
    (capacity : UInt32) (bufferAfter : Option Ms) : (s.create id parentId name capacity bufferAfter).Planted none := by
  have linked : s.Linked := ⟨planted.named, fun c => by rw [planted.parents, parentEntry_join],
    fun p c => by simp [planted.children, planted.parents, join_eq_some], planted.childrenNodup⟩
  refine (linked.create (Option.map_eq_none_iff.mp absent) parentId name capacity bufferAfter).planted ?_
  have entries : (s.create id parentId name capacity bufferAfter).parentEntry =
      Function.update s.parentEntry id (some parentId) := by
    funext c
    rw [create_parentEntry, Function.update_apply]
  rw [entries]
  exact planted.bounded.insert absent room

theorem unlink_parentEntry {rs : ResourceState} {id : Ulid} : (s.unlink rs id).parentEntry = s.parentEntry := by
  funext c
  rw [parentEntry, unlink_getResource, parentEntry]

/-- A delete first takes the resource off its parent's list. -/
theorem Planted.unlink (planted : s.Planted none) {id : Ulid} {rs : ResourceState} (present : s.getResource id = some rs) :
    (s.unlink rs id).Planted (some id) := by
  have under : s.parentEntry id = some rs.parentId := by rw [parentEntry, present]; rfl
  refine ⟨fun r other found => planted.named r other (by rwa [← unlink_getResource s rs id]), ?_, fun c => ?_,
    fun p c => ?_, fun p => ?_⟩
  · rw [unlink_parentEntry]
    exact planted.bounded
  · rw [unlink_getParent, unlink_parentEntry]
    exact planted.parents c
  · rw [unlink_getChildren, unlink_parentEntry]
    by_cases own : c = id
    · subst own
      split
      · simp
      · next apart => simp [planted.children, under, apart]
    · split <;> simp [planted.children, own, Ne.symm own]
  · rw [unlink_getChildren]
    split
    · exact (planted.childrenNodup p).filter _
    · exact planted.childrenNodup p

theorem removeResource_parentEntry (id : Ulid) :
    (s.removeResource id).parentEntry = Function.update s.parentEntry id none := by
  funext c
  rw [parentEntry, removeResource_getResource, Function.update_apply]
  split <;> rfl

/-- And takes it from the table when the flush is through. -/
theorem Planted.remove {id : Ulid} (planted : s.Planted (some id)) (leaf : ∀ c, s.parentEntry c ≠ some (some id)) :
    (s.removeResource id).Planted none := by
  have entries := removeResource_parentEntry (s := s) id
  refine ⟨fun r rs found => ?_, ?_, fun c => ?_, fun p c => ?_, fun p => ?_⟩
  · rw [removeResource_getResource] at found
    split at found
    · cases found
    · exact planted.named r rs found
  · rw [entries]
    exact planted.bounded.erase leaf
  · rw [removeResource_getParent, entries, Function.update_apply, planted.parents]
    split <;> rfl
  · rw [removeResource_getChildren, entries, planted.children, Function.update_apply]
    by_cases own : c = id
    · subst own
      simp
    · simp [own, Ne.symm own]
  · rw [removeResource_getChildren]
    exact planted.childrenNodup p

/-! ## The log -/

/-- A record does to the recorded parents what it says. -/
theorem replayed_entriesAfter (events : List Event) (ev : Event) :
    (replayed (events ++ [ev])).parentEntry = ev.entriesAfter (replayed events).parentEntry := by
  funext c
  cases ev with
  | resourceCreated id parentId name capacity bufferAfter =>
      rw [replayed_created, Event.entriesAfter, Function.update_apply]
  | resourceDeleted id => rw [replayed_deleted, Event.entriesAfter, Function.update_apply]
  | resourceUpdated | ruleAdded | ruleUpdated | ruleRemoved | holdPlaced | holdReleased | bookingConfirmed
  | bookingCancelled | holdsCommitted => exact replayed_parentEntry (List.forall_mem_singleton.mpr rfl) c

/-- Snapshots with the parents that a table has, of some of its resources, and the ones left to copy. -/
structure Copied (entries : Ulid → Option (Option Ulid)) (snapshots : List ResourceState) (left : List Ulid) : Prop where
  distinct : (snapshots.map (·.id) ++ left).Nodup
  whole : ∀ r, r ∈ snapshots.map (·.id) ++ left ↔ (entries r).isSome
  parents : ∀ snap ∈ snapshots, entries snap.id = some snap.parentId

/-- A file of snapshots of every resource has the parents of the table. -/
theorem Copied.replayed {entries : Ulid → Option (Option Ulid)} {snapshots : List ResourceState}
    (copied : Copied entries snapshots []) : (replayed (Compaction.snapshotEvents snapshots)).Linked ∧
      (replayed (Compaction.snapshotEvents snapshots)).parentEntry = entries := by
  obtain ⟨sorted, perm, events⟩ : ∃ sorted : List ResourceState, sorted.Perm snapshots ∧
      Compaction.snapshotEvents snapshots = sorted.flatMap Compaction.resourceEvents :=
    ⟨_, List.perm_insertionSort _ _, rfl⟩
  have distinct := copied.distinct
  rw [List.append_nil] at distinct
  have distinct' := (perm.map (·.id)).nodup_iff.mpr distinct
  rw [events]
  refine ⟨Compaction.linked_snapshots distinct' empty_linked fun _ _ => rfl, funext fun c => ?_⟩
  rw [parentEntry, replayed_getResource]
  cases entry : entries c with
  | none =>
      rw [Compaction.foldl_snapshots_absent]
      · rfl
      · intro inside
        have there := (copied.whole c).mp (by rwa [List.append_nil, ← (perm.map (·.id)).mem_iff])
        rw [entry] at there
        cases there
  | some parent =>
      have inside := (copied.whole c).mpr (by rw [entry]; rfl)
      rw [List.append_nil] at inside
      obtain ⟨snap, member, rfl⟩ := List.mem_map.mp inside
      obtain ⟨rs, found, restores⟩ := Compaction.foldl_snapshots distinct' (perm.mem_iff.mpr member) none
      rw [found, Option.map_some, restores.parentId]
      exact (copied.parents snap member).symm.trans entry

/-- What was recorded behind the snapshots moves no resource. -/
theorem Copied.mergeRecorded {entries : Ulid → Option (Option Ulid)} {snapshots : List ResourceState}
    (copied : Copied entries snapshots []) {recorded : List Event} (changes : ∀ ev ∈ recorded, ev.isChange) :
    (InMemoryStore.replayed (Compaction.mergeRecorded (Compaction.snapshotEvents snapshots) recorded)).Linked ∧
      (InMemoryStore.replayed (Compaction.mergeRecorded (Compaction.snapshotEvents snapshots) recorded)).parentEntry = entries := by
  obtain ⟨linked, parents⟩ := copied.replayed
  unfold Compaction.mergeRecorded
  simp only
  generalize kept : List.filter _ (recorded.flatMap Event.perResource) = merged
  have changes' : ∀ ev ∈ merged, ev.isChange := by
    intro ev inside
    rw [← kept] at inside
    obtain ⟨record, member, step⟩ := List.mem_flatMap.mp (List.mem_filter.mp inside).1
    exact Event.perResource_isChange (changes record member) step
  refine ⟨?_, funext fun c => ?_⟩
  · rw [replayed_append]
    exact linked.foldl_changes changes'
  · rw [replayed_parentEntry changes', parents]

end InMemoryStore

/-! ## Memory -/

theorem InMemoryStore.foldl_indexSingle_resources (changes : List Event) : ∀ s : InMemoryStore,
    (changes.foldl indexSingle s).resources = s.resources := by
  induction changes with
  | nil => exact fun _ => rfl
  | cons ev rest ih => exact fun s => (ih (s.indexSingle ev)).trans (indexSingle_resources s ev).1

/-- A change of a resource, in the table or not, leaves the tree. -/
theorem Memory.apply_sameTree (m : Memory) (h : Handle) (change : Event) :
    Engine.SameTree m.store (m.apply h change).store := by
  unfold Memory.apply
  split
  · exact ⟨InMemoryStore.replayOn_shape h.1 change, InMemoryStore.replayOn_links h.1 change⟩
  · cases m.orphans h with
    | none => exact .refl _
    | some rs =>
        obtain ⟨parents, children⟩ := InMemoryStore.foldl_indexSingle_tables (change.ownPart rs.id) m.store
        have resources := InMemoryStore.foldl_indexSingle_resources (change.ownPart rs.id) m.store
        refine ⟨fun x => ?_, fun x => ⟨?_, ?_⟩⟩
        · simp only [InMemoryStore.applyEvent, InMemoryStore.getResource, resources]
        · simp only [InMemoryStore.applyEvent, InMemoryStore.getParent, parents]
        · simp only [InMemoryStore.applyEvent, InMemoryStore.getChildren, children]

/-! ## The writer without faults -/

namespace LogWriter

variable {w w' : LogWriter}

theorem push_unanswered (w : LogWriter) (command : WalCommand) :
    (w.push command).outcomes command.sender = none := Function.update_self ..

/-- A flush that goes through. -/
theorem flush_whole {n : Nat} (taken : w.flush n true = some w') (attached : w.attached = true) :
    w' = { w.answer n true with
      file := w.file ++ (w.queue.take n).flatMap WalCommand.records
      recording := w.recording.map (· ++ (w.queue.take n).flatMap WalCommand.records)
      flushed := w.flushed ++ (w.queue.take n).flatMap WalCommand.records } := by
  unfold flush at taken
  simp only [attached, ↓reduceIte] at taken
  split at taken
  · split at taken
    · cases taken
    · cases taken
      rfl
    · contradiction
  · cases taken

/-- A compaction's command that goes through. -/
theorem handle_whole (taken : w.handle none = some w') (running : w.failed = false) :
    (∃ rest, w.queue = .compactBegin :: rest ∧ w' = { w.answer 1 true with recording := some [] }) ∨
      ∃ events rest, w.queue = .compact events :: rest ∧ w' = { w.answer 1 true with
        file := Compaction.mergeRecorded events (w.recording.getD []), attached := true, recording := none } := by
  unfold handle at taken
  split at taken
  · next head => cases taken; exact .inl ⟨_, head, rfl⟩
  · next head =>
      rw [running] at taken
      cases taken
      exact .inr ⟨_, _, head, rfl⟩
  · cases taken

/-- One that goes through, or fails and leaves the file. -/
theorem handle_harmless {fault : Option CompactFault} (taken : w.handle fault = some w')
    (harmless : ∀ f, fault = some f → f.renamed = false) (running : w.failed = false) (attached : w.attached = true) :
    (∃ rest, w.queue = .compactBegin :: rest ∧ w' = { w.answer 1 true with recording := some [] }) ∨
      ∃ events rest, w.queue = .compact events :: rest ∧ ∃ ok : Bool, (ok = true → fault = none) ∧ w' = { w.answer 1 ok with
        file := if ok then Compaction.mergeRecorded events (w.recording.getD []) else w.file, recording := none } := by
  unfold handle at taken
  split at taken
  · next head => cases taken; exact .inl ⟨_, head, rfl⟩
  · next events rest head =>
      simp only [running, Bool.false_eq_true, ↓reduceIte] at taken
      split at taken
      · cases taken
        refine .inr ⟨events, rest, head, true, fun _ => rfl, ?_⟩
        simp only [↓reduceIte, answer, attached]
      · next f =>
          rw [harmless f rfl] at taken
          cases taken
          exact .inr ⟨events, rest, head, false, fun same => (by cases same), rfl⟩
  · cases taken

end LogWriter

/-! ## The tenant -/

namespace Tenant

variable {shards : Shards} {t t' : Tenant} {a : Action}

/-- Without faults of the log, and with no compaction beside a create or a delete. -/
def Undisturbed (t : Tenant) : Action → Prop
  | .flush _ ok => ok = true
  | .handle fault => fault = none
  | .create .. | .delete _ => t.compaction = .idle
  | .beginCompaction => t.topology = .idle
  | _ => True

/-- Without faults of the log, but for compactions that fail and leave the old file. -/
def Action.Harmless : Action → Prop
  | .flush _ ok => ok = true
  | .handle fault => ∀ f, fault = some f → f.renamed = false
  | _ => True

theorem Undisturbed.harmless (undisturbed : t.Undisturbed a) : a.Harmless := by
  cases a with
  | flush => exact undisturbed
  | handle =>
      cases undisturbed
      exact fun _ same => by cases same
  | _ => trivial

/-- The resource that the delete under way has taken off its parent's list. -/
def leaving (t : Tenant) : Option Ulid :=
  match t.topology with
  | .deleting _ .found => none
  | .deleting id _ => some id
  | _ => none

/-- The parents as the flushed records tell them. -/
def recordedEntries (t : Tenant) : Ulid → Option (Option Ulid) :=
  match t.topology.record, t.writer.outcomes .topology with
  | some ev, some true => ev.entriesAfter t.memory.store.parentEntry
  | _, _ => t.memory.store.parentEntry

/-- The writer runs, and its queue is as its senders keep it. -/
structure Serving (t : Tenant) : Prop where
  queued : t.Queued
  bound : ∀ i, (t.tasks i).Bound fun _ => True
  commands : t.Commands
  running : t.writer.failed = false
  attached : t.writer.attached = true

theorem on_serving {e : Engine} (running : e.failed = false) : (on e).Serving where
  queued := on_queued e
  bound _ := .plain (fun _ _ _ phase => by cases phase) rfl
  commands _ inside := (List.not_mem_nil inside).elim
  running := running
  attached := rfl

theorem Serving.took (serving : t.Serving) (took : t.Took shards a t') (harmless : a.Harmless) : t'.Serving := by
  have worked : t'.writer.failed = false ∧ t'.writer.attached = true := by
    cases took with
    | flush taken =>
        cases harmless
        rw [LogWriter.flush_whole taken serving.attached]
        exact ⟨serving.running, serving.attached⟩
    | handle taken =>
        rcases LogWriter.handle_harmless taken harmless serving.running serving.attached with
          ⟨_, _, same⟩ | ⟨_, _, _, _, _, same⟩ <;>
        · rw [same]
          exact ⟨serving.running, serving.attached⟩
    | _ => exact ⟨serving.running, serving.attached⟩
  exact ⟨serving.queued.took took, took.bound serving.bound, serving.commands.took serving.queued serving.bound took,
    worked.1, worked.2⟩

/-- No create or delete learns that its flush failed. -/
theorem Serving.unfailing (serving : t.Serving) {P Q : Prop} :
    ¬ (t.writer.outcomes .topology = some false ∧ P ∨ t.writer.failed = true ∧ Q) := by
  rintro (⟨refused, _⟩ | ⟨failed, _⟩)
  · have failed := serving.queued.refused .topology (fun same => by cases same) refused
    cases serving.running.symm.trans failed
  · cases serving.running.symm.trans failed

/-- Nor is one given up. -/
theorem Serving.goesOn (serving : t.Serving) (took : t.Took shards a t') : a ≠ .abandonTopology := by
  rintro rfl
  cases took with
  | abandon failing => exact serving.unfailing failing

/-- The forest in memory, and what the checks of the create or delete under way have found. -/
structure Grown (t : Tenant) : Prop where
  planted : t.memory.store.Planted t.leaving
  creating : ∀ id parentId name capacity bufferAfter sent,
    t.topology = .creating id parentId name capacity bufferAfter sent → t.memory.store.parentEntry id = none ∧
      ∀ p, parentId = some p → ∃ n < maxHierarchyDepth, Forest.Depth t.memory.store.parentEntry p n
  deleting : ∀ id stage, t.topology = .deleting id stage → ∀ c, t.memory.store.parentEntry c ≠ some (some id)

/-- A step beside the create or delete under way. -/
theorem Grown.beside (grown : t.Grown) (same : Engine.SameTree t.memory.store t'.memory.store)
    (topology : t'.topology = t.topology) : t'.Grown := by
  have entries := InMemoryStore.sameTree_parentEntry same
  have leaving : t'.leaving = t.leaving := by rw [Tenant.leaving, Tenant.leaving, topology]
  refine ⟨?_, ?_, ?_⟩
  · rw [leaving]
    exact grown.planted.same same
  · rw [entries, topology]
    exact grown.creating
  · rw [entries, topology]
    exact grown.deleting

/-- The walk up from a new resource's parent leaves room for one more. -/
theorem Grown.room (grown : t.Grown) {id : Ulid} {parentId : Option Ulid} {name : Option String} {capacity : UInt32}
    {bufferAfter : Option Ms} (checked : t.engine.checkCreate id parentId name capacity bufferAfter = .ok ()) (p : Ulid)
    (under : parentId = some p) : ∃ n < maxHierarchyDepth, Forest.Depth t.memory.store.parentEntry p n := by
  obtain ⟨_, inTable⟩ := (Engine.checkCreate_ok checked).2.2 p under
  rw [← InMemoryStore.isSome_parentEntry] at inTable
  obtain ⟨n, _, depth⟩ := grown.planted.bounded p inTable
  obtain ⟨line, lineage, length⟩ := InMemoryStore.ancestors_of_depth grown.planted.parents depth
  have within := lineage.checkDepth_ok (Engine.checkCreate_depth checked p under)
  exact ⟨n, by omega, depth⟩

theorem Grown.took (grown : t.Grown) (took : t.Took shards a t') (goesOn : a ≠ .abandonTopology) : t'.Grown := by
  cases took with
  | apply => exact grown.beside (Memory.apply_sameTree ..) rfl
  | create phase _ checked =>
      have staying : t.leaving = none := by rw [leaving, phase]
      have planted := grown.planted
      rw [staying] at planted
      refine ⟨planted, ?_, fun _ _ same => by cases same⟩
      rintro _ _ _ _ _ _ ⟨⟩
      exact ⟨Option.map_eq_none_iff.mpr (Engine.checkCreate_ok checked).2.1, grown.room checked⟩
  | @delete id _ phase checked =>
      have staying : t.leaving = none := by rw [leaving, phase]
      have planted := grown.planted
      rw [staying] at planted
      refine ⟨planted, fun _ _ _ _ _ _ same => (by cases same), ?_⟩
      rintro _ _ ⟨⟩ c under
      have listed := (planted.children id c).mpr ⟨under, fun same => by cases same⟩
      rw [show t.memory.store.getChildren id = [] from (Engine.checkDelete_ok checked).2] at listed
      cases listed
  | @unlink id rs phase _ present =>
      have staying : t.leaving = none := by rw [leaving, phase]
      have planted := grown.planted
      rw [staying] at planted
      refine ⟨planted.unlink present, fun _ _ _ _ _ _ same => (by cases same), ?_⟩
      rintro _ _ ⟨⟩
      rw [InMemoryStore.unlink_parentEntry]
      exact grown.deleting id _ phase
  | @clear id phase _ | @sendDelete id phase =>
      have gone : t.leaving = some id := by rw [leaving, phase]
      have planted := grown.planted
      rw [gone] at planted
      refine ⟨planted, fun _ _ _ _ _ _ same => (by cases same), ?_⟩
      rintro _ _ ⟨⟩
      exact grown.deleting _ _ phase
  | sendCreate phase =>
      have staying : t.leaving = none := by rw [leaving, phase]
      have planted := grown.planted
      rw [staying] at planted
      refine ⟨planted, ?_, fun _ _ same => by cases same⟩
      rintro _ _ _ _ _ _ ⟨⟩
      exact grown.creating _ _ _ _ _ _ phase
  | finishCreate phase =>
      have staying : t.leaving = none := by rw [leaving, phase]
      have planted := grown.planted
      rw [staying] at planted
      obtain ⟨absent, room⟩ := grown.creating _ _ _ _ _ _ phase
      exact ⟨planted.create absent room _ _ _, fun _ _ _ _ _ _ same => (by cases same), fun _ _ same => by cases same⟩
  | @finishDelete id phase =>
      have gone : t.leaving = some id := by rw [leaving, phase]
      have planted := grown.planted
      rw [gone] at planted
      exact ⟨planted.remove (grown.deleting id _ phase), fun _ _ _ _ _ _ same => (by cases same), fun _ _ same => by cases same⟩
  | abandon => exact absurd rfl goesOn
  | _ => exact grown.beside (.refl _) rfl

/-! ### A log that fails -/

/-- A tenant whose log has failed, and that creates and deletes nothing any more. -/
structure Stopped (t : Tenant) : Prop where
  failed : t.writer.failed = true
  bounded : Forest.Bounded maxHierarchyDepth t.memory.store.parentEntry
  parents : ∀ c, t.memory.store.getParent c = (t.memory.store.parentEntry c).join
  stage : t.topology = .idle ∨ ∃ id, t.topology = .deleting id .found ∨ t.topology = .deleting id .unlinked

theorem Took.failed (took : t.Took shards a t') (failed : t.writer.failed = true) : t'.writer.failed = true := by
  rcases took.pushes with same | ⟨command, pushed, _⟩ | worked
  · rw [same]
    exact failed
  · rw [pushed]
    exact failed
  · exact worked.failed failed

theorem Stopped.took (stopped : t.Stopped) (took : t.Took shards a t') : t'.Stopped := by
  have failed := took.failed stopped.failed
  have unlinked : ∀ {s : InMemoryStore}, s.parentEntry = t.memory.store.parentEntry →
      (∀ c, s.getParent c = t.memory.store.getParent c) →
      Forest.Bounded maxHierarchyDepth s.parentEntry ∧ ∀ c, s.getParent c = (s.parentEntry c).join := by
    intro s entries links
    refine ⟨entries ▸ stopped.bounded, fun c => ?_⟩
    rw [links, entries]
    exact stopped.parents c
  cases took with
  | @apply _ _ _ h change =>
      have same := Memory.apply_sameTree t.memory h change
      obtain ⟨bounded, parents⟩ := unlinked (InMemoryStore.sameTree_parentEntry same) fun c => (same.links c).1
      exact ⟨failed, bounded, parents, stopped.stage⟩
  | create _ running => cases stopped.failed.symm.trans running
  | clear _ running => cases stopped.failed.symm.trans running
  | delete => exact ⟨failed, stopped.bounded, stopped.parents, .inr ⟨_, .inl rfl⟩⟩
  | unlink =>
      obtain ⟨bounded, parents⟩ := unlinked InMemoryStore.unlink_parentEntry InMemoryStore.unlink_getParent
      exact ⟨failed, bounded, parents, .inr ⟨_, .inr rfl⟩⟩
  | abandon => exact ⟨failed, stopped.bounded, stopped.parents, .inl rfl⟩
  | sendCreate phase | sendDelete phase | finishCreate phase | finishDelete phase =>
      rcases stopped.stage with idle | ⟨_, found | unlinked⟩
      · cases phase.symm.trans idle
      · cases phase.symm.trans found
      · cases phase.symm.trans unlinked
  | _ => exact ⟨failed, stopped.bounded, stopped.parents, stopped.stage⟩

/-- The resources form a forest, whatever the log does. -/
def Rooted (t : Tenant) : Prop := t.Grown ∨ t.Stopped

theorem Rooted.took (rooted : t.Rooted) (queued : t.Queued) (took : t.Took shards a t') : t'.Rooted := by
  rcases rooted with grown | stopped
  · by_cases goesOn : a = .abandonTopology
    · subst goesOn
      cases took with
      | abandon failing =>
          have failed : t.writer.failed = true := by
            rcases failing with ⟨refused, _⟩ | ⟨failed, _⟩
            · exact queued.refused .topology (fun same => by cases same) refused
            · exact failed
          exact .inr ⟨failed, grown.planted.bounded, grown.planted.parents, .inl rfl⟩
    · exact .inl (grown.took took goesOn)
  · exact .inr (stopped.took took)

/-- Nobody above a resource is that resource. -/
theorem Rooted.not_above (rooted : t.Rooted) (r : Ulid) (fuel : Nat) :
    r ∉ NotifyingEngine.successors t.memory.store fuel ((t.memory.store.getResource r).bind (·.parentId)) := by
  rcases rooted with grown | stopped
  · exact InMemoryStore.not_above grown.planted.bounded grown.planted.parents r fuel
  · exact InMemoryStore.not_above stopped.bounded stopped.parents r fuel

/-! ### Compactions -/

/-- The hierarchy that a compaction under way copies stands still. -/
structure Window (shards : Shards) (t : Tenant) : Prop where
  quiet : t.compaction ≠ .idle → t.topology = .idle
  begins : .compactBegin ∈ t.writer.queue → t.compaction = .beginning
  changes : t.compaction ≠ .idle → .compactBegin ∉ t.writer.queue →
    ∀ recorded, t.writer.recording = some recorded → ∀ ev ∈ recorded, ev.isChange
  listed : ∀ visited ids, t.compaction = .listing visited ids →
    ids.Nodup ∧ ∀ r, r ∈ ids ↔ (t.memory.store.parentEntry r).isSome ∧ (shards.of r).val < visited
  copied : ∀ snapshots found rest, t.compaction = .snapshotting snapshots found rest →
    (∀ h, found = some h → h = t.memory.current h.1) ∧
      InMemoryStore.Copied t.memory.store.parentEntry snapshots ((found.map Prod.fst).toList ++ rest)
  compacts : ∀ events, .compact events ∈ t.writer.queue → t.compaction = .submitted ∧
    ∃ snapshots, events = Compaction.snapshotEvents snapshots ∧
      InMemoryStore.Copied t.memory.store.parentEntry snapshots []

/-- A step beside the compaction, in which the hierarchy may change only when there is none. -/
theorem Window.beside (window : t.Window shards) (compaction : t'.compaction = t.compaction)
    (still : t.compaction ≠ .idle → t'.topology = .idle ∧ t'.memory.store.parentEntry = t.memory.store.parentEntry ∧
      t'.memory.removed = t.memory.removed)
    (queue : ∀ c ∈ t'.writer.queue, c.sender = .compaction → c ∈ t.writer.queue)
    (changes : t.compaction ≠ .idle → .compactBegin ∉ t'.writer.queue →
      ∀ recorded, t'.writer.recording = some recorded → ∀ ev ∈ recorded, ev.isChange) : t'.Window shards where
  quiet busy := (still (compaction ▸ busy)).1
  begins inside := compaction.trans (window.begins (queue _ inside rfl))
  changes busy := changes (compaction ▸ busy)
  listed visited ids phase := by
    rw [compaction] at phase
    rw [(still (by rw [phase]; exact fun same => by cases same)).2.1]
    exact window.listed visited ids phase
  copied snapshots found rest phase := by
    rw [compaction] at phase
    obtain ⟨_, entries, removed⟩ := still (by rw [phase]; exact fun same => by cases same)
    unfold Memory.current
    rw [entries, removed]
    exact window.copied snapshots found rest phase
  compacts events inside := by
    obtain ⟨phase, copies⟩ := window.compacts events (queue _ inside rfl)
    rw [compaction, (still (by rw [phase]; exact fun same => by cases same)).2.1]
    exact ⟨phase, copies⟩

/-- A step that leaves compaction and writer alone, as do those of a create or a delete. -/
theorem Window.idle (window : t.Window shards) (compaction : t'.compaction = t.compaction) (writer : t'.writer = t.writer)
    (still : t.compaction ≠ .idle → t'.topology = .idle ∧ t'.memory.store.parentEntry = t.memory.store.parentEntry ∧
      t'.memory.removed = t.memory.removed) : t'.Window shards := by
  refine window.beside compaction still ?_ ?_ <;> rw [writer]
  · exact fun _ inside _ => inside
  · exact window.changes

/-- Somebody else queues a command. -/
theorem Window.push (window : t.Window shards) {command : WalCommand} (writer : t'.writer = t.writer.push command)
    (other : command.sender ≠ .compaction) (compaction : t'.compaction = t.compaction)
    (still : t.compaction ≠ .idle → t'.topology = .idle ∧ t'.memory.store.parentEntry = t.memory.store.parentEntry ∧
      t'.memory.removed = t.memory.removed) : t'.Window shards := by
  refine window.beside compaction still ?_ fun busy entered => ?_ <;> rw [writer] at *
  · intro c inside sender
    rcases List.mem_append.mp inside with there | now
    · exact there
    · cases List.mem_singleton.mp now
      exact absurd sender other
  · exact window.changes busy fun inside => entered (List.mem_append_left _ inside)

/-- A compaction that waits for no answer has nothing queued. -/
theorem Serving.none_queued (serving : t.Serving)
    (answered : t.compaction.queued = false ∨ t.writer.outcomes .compaction ≠ none) (c : WalCommand)
    (sender : c.sender = .compaction) : c ∉ t.writer.queue := by
  intro inside
  obtain ⟨waits, unanswered⟩ := serving.queued.waiting c inside
  rw [sender] at waits unanswered
  rcases answered with none | some
  · exact absurd waits (by rw [Tenant.awaits, none]; simp)
  · exact some unanswered

/-- The compaction goes on, with nothing queued. -/
theorem Window.move (window : t.Window shards) {compaction : Compacting}
    (none : ∀ c : WalCommand, c.sender = .compaction → c ∉ t.writer.queue) (busy : t.compaction ≠ .idle)
    (listed : ∀ visited ids, compaction = .listing visited ids →
      ids.Nodup ∧ ∀ r, r ∈ ids ↔ (t.memory.store.parentEntry r).isSome ∧ (shards.of r).val < visited)
    (copied : ∀ snapshots found rest, compaction = .snapshotting snapshots found rest →
      (∀ h, found = some h → h = t.memory.current h.1) ∧
        InMemoryStore.Copied t.memory.store.parentEntry snapshots ((found.map Prod.fst).toList ++ rest)) :
    ({ t with compaction } : Tenant).Window shards where
  quiet _ := window.quiet busy
  begins inside := absurd inside (none _ rfl)
  changes _ := window.changes busy
  listed := listed
  copied := copied
  compacts _ inside := absurd inside (none _ rfl)

theorem oneFlush_appends {batch : List WalCommand} (one : WalCommand.oneFlush batch) {c : WalCommand} (inside : c ∈ batch) :
    c ≠ .compactBegin := by
  rintro rfl
  unfold WalCommand.oneFlush at one
  split at one
  · cases inside
  · cases List.mem_singleton.mp inside
  · have append := List.all_eq_true.mp one _ inside
    cases append

/-- The next shard's ids are those of the resources in it. -/
theorem Window.list (window : t.Window shards) {visited : Nat} {before ids : List Ulid}
    (phase : t.compaction = .listing visited before)
    (shard : ids.Perm (t.memory.store.resourceIds.filter fun r => (shards.of r).val = visited)) :
    (before ++ ids).Nodup ∧ ∀ r, r ∈ before ++ ids ↔
      (t.memory.store.parentEntry r).isSome ∧ (shards.of r).val < visited + 1 := by
  obtain ⟨distinct, listed⟩ := window.listed visited before phase
  have inShard : ∀ r, r ∈ ids ↔ (t.memory.store.parentEntry r).isSome ∧ (shards.of r).val = visited := by
    intro r
    rw [shard.mem_iff, List.mem_filter, Engine.mem_resourceIds, InMemoryStore.isSome_parentEntry, decide_eq_true_iff]
  have ids_nodup : ids.Nodup := by
    rw [shard.nodup_iff]
    exact List.Nodup.filter _ (AList.nodupKeys _)
  refine ⟨distinct.append ids_nodup fun r earlier now => ?_, fun r => ?_⟩
  · have below := ((listed r).mp earlier).2
    exact absurd ((inShard r).mp now).2 (Nat.ne_of_lt below)
  · rw [List.mem_append, listed, inShard, ← and_or_left]
    exact and_congr_right fun _ => by omega

theorem Window.took (window : t.Window shards) (serving : t.Serving) (grown : t.Grown) (took : t.Took shards a t')
    (undisturbed : t.Undisturbed a) : t'.Window shards := by
  -- A create or a delete finds no compaction.
  have apart : ∀ {P : Prop}, t.topology ≠ .idle → t.compaction ≠ .idle → P := fun under busy =>
    absurd (window.quiet busy) under
  cases took with
  | apply =>
      refine window.idle rfl rfl fun busy => ⟨window.quiet busy, ?_, Memory.apply_removed ..⟩
      exact InMemoryStore.sameTree_parentEntry (Memory.apply_sameTree ..)
  | create | delete =>
      refine window.idle rfl rfl fun busy => ?_
      exact absurd undisturbed busy
  | unlink phase | clear phase | finishCreate phase | finishDelete phase =>
      refine window.idle rfl rfl (apart ?_)
      rw [phase]
      exact fun same => by cases same
  | sendCreate phase | sendDelete phase =>
      refine window.push rfl (fun same => by cases same) rfl (apart ?_)
      rw [phase]
      exact fun same => by cases same
  | abandon failing => exact absurd failing serving.unfailing
  | send =>
      refine window.push rfl (fun same => ?_) rfl fun busy => ⟨window.quiet busy, rfl, rfl⟩
      rw [WalCommand.write_sender] at same
      cases same
  | @flush n ok writer taken =>
      cases undisturbed
      have one := taken
      unfold LogWriter.flush at one
      simp only at one
      split at one
      · next oneFlush =>
          rw [LogWriter.flush_whole taken serving.attached]
          refine window.beside rfl (fun busy => ⟨window.quiet busy, rfl, rfl⟩)
            (fun _ inside _ => List.mem_of_mem_drop inside) fun busy entered recorded recording => ?_
          obtain ⟨before, was, rfl⟩ := Option.map_eq_some_iff.mp recording
          have begun : .compactBegin ∉ t.writer.queue := by
            intro inside
            rw [← List.take_append_drop n t.writer.queue] at inside
            exact (List.mem_append.mp inside).elim (fun first => oneFlush_appends oneFlush first rfl) entered
          have others := serving.commands.others serving.queued fun record => by
            rw [window.quiet busy] at record
            cases record
          intro ev inside
          rcases List.mem_append.mp inside with earlier | now
          · exact window.changes busy begun before was ev earlier
          · obtain ⟨c, first, member⟩ := List.mem_flatMap.mp now
            exact (others c (List.mem_of_mem_take first)).2 ev member
      · cases one
  | handle taken =>
      cases undisturbed
      rcases LogWriter.handle_whole taken serving.running with ⟨_, _, same⟩ | ⟨_, _, _, same⟩
      · rw [same]
        refine window.beside rfl (fun busy => ⟨window.quiet busy, rfl, rfl⟩)
          (fun _ inside _ => List.mem_of_mem_drop inside) ?_
        rintro _ _ _ ⟨⟩
        exact List.forall_mem_nil _
      · rw [same]
        refine window.beside rfl (fun busy => ⟨window.quiet busy, rfl, rfl⟩)
          (fun _ inside _ => List.mem_of_mem_drop inside) ?_
        rintro _ _ _ ⟨⟩
  | beginCompaction phase =>
      have none := serving.none_queued (.inl (by rw [phase]; rfl))
      refine ⟨fun _ => undisturbed, fun _ => rfl, fun _ entered => ?_, fun _ _ same => (by cases same),
        fun _ _ _ same => (by cases same), fun events inside => ?_⟩
      · exact absurd (List.mem_append_right _ (List.mem_singleton.mpr rfl)) entered
      · rcases List.mem_append.mp inside with there | now
        · exact absurd there (none _ rfl)
        · cases List.mem_singleton.mp now
  | enterWindow phase outcome =>
      have none := serving.none_queued (.inr (by rw [outcome]; exact fun same => by cases same))
      have busy : t.compaction ≠ .idle := by rw [phase]; exact fun same => by cases same
      refine window.move none busy ?_ fun _ _ _ same => by cases same
      rintro _ _ ⟨⟩
      exact ⟨.nil, fun r => by simp⟩
  | @list visited before ids phase _ shard =>
      have none := serving.none_queued (.inl (by rw [phase]; rfl))
      have busy : t.compaction ≠ .idle := by rw [phase]; exact fun same => by cases same
      refine window.move none busy ?_ fun _ _ _ same => by cases same
      rintro _ _ ⟨⟩
      exact window.list phase shard
  | @allListed ids phase =>
      have none := serving.none_queued (.inl (by rw [phase]; rfl))
      have busy : t.compaction ≠ .idle := by rw [phase]; exact fun same => by cases same
      refine window.move none busy (fun _ _ same => by cases same) ?_
      rintro _ _ _ ⟨⟩
      obtain ⟨distinct, listed⟩ := window.listed _ _ phase
      refine ⟨fun _ same => (by cases same), distinct, fun r => ?_, List.forall_mem_nil _⟩
      exact (listed r).trans (and_iff_left (shards.of r).isLt)
  | @lookSnapshot snapshots rid rest phase =>
      have none := serving.none_queued (.inl (by rw [phase]; rfl))
      have busy : t.compaction ≠ .idle := by rw [phase]; exact fun same => by cases same
      obtain ⟨_, copied⟩ := window.copied _ _ _ phase
      have there := (copied.whole rid).mp (List.mem_append_right _ List.mem_cons_self)
      rw [InMemoryStore.isSome_parentEntry] at there
      have found : t.memory.lookUp rid = some (t.memory.current rid) := if_pos there
      refine window.move none busy (fun _ _ same => by cases same) ?_
      rintro _ _ _ ⟨⟩
      rw [found]
      refine ⟨?_, copied⟩
      rintro _ ⟨⟩
      rfl
  | @snapshot snapshots h rest rs phase _ present =>
      have none := serving.none_queued (.inl (by rw [phase]; rfl))
      have busy : t.compaction ≠ .idle := by rw [phase]; exact fun same => by cases same
      obtain ⟨current, copied⟩ := window.copied _ _ _ phase
      have read : t.memory.store.getResource h.1 = some rs := by
        rw [current h rfl] at present ⊢
        exact (if_pos rfl).symm.trans present
      have own : rs.id = h.1 := grown.planted.named _ _ read
      refine window.move none busy (fun _ _ same => by cases same) ?_
      rintro _ _ _ ⟨⟩
      have same : (snapshots ++ [rs]).map (·.id) ++ rest = snapshots.map (·.id) ++ h.1 :: rest := by simp [own]
      refine ⟨fun _ same => (by cases same), ?_, ?_, fun snap member => ?_⟩
      · exact same ▸ copied.distinct
      · exact same ▸ copied.whole
      · rcases List.mem_append.mp member with before | now
        · exact copied.parents snap before
        · cases List.mem_singleton.mp now
          rw [own, InMemoryStore.parentEntry, read]
          rfl
  | submit phase =>
      have none := serving.none_queued (.inl (by rw [phase]; rfl))
      have busy : t.compaction ≠ .idle := by rw [phase]; exact fun same => by cases same
      refine ⟨fun _ => window.quiet busy, fun inside => ?_, fun _ entered => ?_, fun _ _ same => (by cases same),
        fun _ _ _ same => (by cases same), fun events inside => ?_⟩
      · rcases List.mem_append.mp inside with there | now
        · exact absurd there (none _ rfl)
        · cases List.mem_singleton.mp now
      · exact window.changes busy fun inside => entered (List.mem_append_left _ inside)
      · rcases List.mem_append.mp inside with there | now
        · exact absurd there (none _ rfl)
        · cases List.mem_singleton.mp now
          exact ⟨rfl, _, rfl, (window.copied _ _ _ phase).2⟩
  | finishCompaction phase outcome =>
      have none := serving.none_queued (.inr (by rw [outcome]; exact fun same => by cases same))
      exact ⟨fun busy => absurd rfl busy, fun inside => absurd inside (none _ rfl), fun busy => absurd rfl busy,
        fun _ _ same => (by cases same), fun _ _ _ same => (by cases same), fun events inside => absurd inside (none _ rfl)⟩
  | _ => exact window.idle rfl rfl fun busy => ⟨window.quiet busy, rfl, rfl⟩

/-! ### The log -/

theorem recordedEntries_pending (pending : t.topology.record = none ∨ t.writer.outcomes .topology = none) :
    t.recordedEntries = t.memory.store.parentEntry := by
  unfold recordedEntries
  rcases pending with none | none
  · rw [none]
  · rw [none]
    cases t.topology.record <;> rfl

theorem recordedEntries_flushed {ev : Event} (record : t.topology.record = some ev)
    (flushed : t.writer.outcomes .topology = some true) :
    t.recordedEntries = ev.entriesAfter t.memory.store.parentEntry := by
  unfold recordedEntries
  rw [record, flushed]

theorem recordedEntries_congr (record : t'.topology.record = t.topology.record)
    (outcome : t'.writer.outcomes .topology = t.writer.outcomes .topology)
    (entries : t'.memory.store.parentEntry = t.memory.store.parentEntry) : t'.recordedEntries = t.recordedEntries := by
  unfold recordedEntries
  rw [record, outcome, entries]

/-- The log has the forest in memory, but for a create or delete that is flushed and not finished. -/
structure Recorded (t : Tenant) : Prop where
  linked : (InMemoryStore.replayed t.writer.file).Linked
  parents : (InMemoryStore.replayed t.writer.file).parentEntry = t.recordedEntries

theorem Recorded.same (recorded : t.Recorded) (file : t'.writer.file = t.writer.file)
    (entries : t'.recordedEntries = t.recordedEntries) : t'.Recorded where
  linked := by
    rw [file]
    exact recorded.linked
  parents := by
    rw [file, entries]
    exact recorded.parents

/-- The record of the create or delete under way fits the log. -/
theorem Recorded.topology (recorded : t.Recorded) (grown : t.Grown) {ev : Event} (record : t.topology.record = some ev)
    (unanswered : t.writer.outcomes .topology = none) {before : List Event} (changes : ∀ ev ∈ before, ev.isChange) :
    (InMemoryStore.replayed (t.writer.file ++ before ++ [ev])).Linked ∧
      (InMemoryStore.replayed (t.writer.file ++ before ++ [ev])).parentEntry =
        ev.entriesAfter t.memory.store.parentEntry := by
  have entries : (InMemoryStore.replayed (t.writer.file ++ before)).parentEntry = t.memory.store.parentEntry := by
    rw [← recordedEntries_pending (.inr unanswered), ← recorded.parents]
    exact funext fun c => InMemoryStore.replayed_parentEntry changes c
  have linked : (InMemoryStore.replayed (t.writer.file ++ before)).Linked := by
    rw [InMemoryStore.replayed_append]
    exact recorded.linked.foldl_changes changes
  refine ⟨?_, by rw [InMemoryStore.replayed_entriesAfter, entries]⟩
  rw [InMemoryStore.replayed_append]
  refine linked.replayEvent fun id parentId name capacity bufferAfter same => ?_
  subst same
  have absent : t.memory.store.parentEntry id = none := by
    cases topology : t.topology with
    | idle => rw [topology] at record; cases record
    | creating _ _ _ _ _ sent =>
        rw [topology] at record
        cases sent with
        | false => cases record
        | true =>
            cases record
            exact (grown.creating _ _ _ _ _ _ topology).1
    | deleting _ stage => rw [topology] at record; cases stage <;> cases record
  rw [← entries] at absent
  exact Option.map_eq_none_iff.mp absent

theorem Recorded.flush (recorded : t.Recorded) (serving : t.Serving) (grown : t.Grown) {n : Nat} {writer : LogWriter}
    (taken : t.writer.flush n true = some writer) : ({ t with writer } : Tenant).Recorded := by
  rw [LogWriter.flush_whole taken serving.attached]
  by_cases first : .topology ∈ (t.writer.queue.take n).map WalCommand.sender
  · obtain ⟨c, inside, sender⟩ := List.mem_map.mp first
    have queuedC := List.mem_of_mem_take inside
    have unanswered := (serving.queued.waiting c queuedC).2
    rw [sender] at unanswered
    obtain ⟨ev, record, rfl⟩ := (serving.commands c queuedC).resolve_left fun other => other.1 sender
    obtain ⟨front, back, split⟩ := List.append_of_mem inside
    have distinct := serving.queued.senders.sublist ((List.take_sublist n t.writer.queue).map _)
    rw [split, List.map_append, List.map_cons, List.nodup_append] at distinct
    obtain ⟨_, behind, apart⟩ := distinct
    have changes : ∀ d ∈ t.writer.queue.take n, d.sender ≠ .topology → ∀ ev ∈ d.records, ev.isChange := by
      intro d member other
      rcases serving.commands d (List.mem_of_mem_take member) with ⟨_, all⟩ | ⟨_, _, rfl⟩
      · exact all
      · exact absurd rfl other
    have before : ∀ ev ∈ front.flatMap WalCommand.records, ev.isChange := by
      intro ev member
      obtain ⟨d, there, own⟩ := List.mem_flatMap.mp member
      refine changes d ?_ (fun same => ?_) ev own
      · rw [split]
        exact List.mem_append_left _ there
      · exact apart _ (List.mem_map_of_mem there) _ List.mem_cons_self same
    have after : ∀ ev ∈ back.flatMap WalCommand.records, ev.isChange := by
      intro ev member
      obtain ⟨d, there, own⟩ := List.mem_flatMap.mp member
      refine changes d ?_ (fun same => ?_) ev own
      · rw [split]
        exact List.mem_append_right _ (List.mem_cons_of_mem _ there)
      · exact (List.nodup_cons.mp behind).1 (List.mem_map.mpr ⟨d, there, same⟩)
    obtain ⟨linked, parents⟩ := recorded.topology grown record unanswered before
    have file : t.writer.file ++ (t.writer.queue.take n).flatMap WalCommand.records =
        t.writer.file ++ front.flatMap WalCommand.records ++ [ev] ++ back.flatMap WalCommand.records := by
      rw [split]
      simp [WalCommand.records]
    refine ⟨?_, ?_⟩ <;> simp only [file]
    · rw [InMemoryStore.replayed_append]
      exact linked.foldl_changes after
    · refine ((funext fun c => InMemoryStore.replayed_parentEntry after c).trans parents).trans (Eq.symm ?_)
      apply recordedEntries_flushed
      · exact record
      · exact if_pos first
  · have changes : ∀ ev ∈ (t.writer.queue.take n).flatMap WalCommand.records, ev.isChange := by
      intro ev member
      obtain ⟨d, there, own⟩ := List.mem_flatMap.mp member
      rcases serving.commands d (List.mem_of_mem_take there) with ⟨_, all⟩ | ⟨_, _, rfl⟩
      · exact all ev own
      · exact absurd (List.mem_map_of_mem there) first
    refine ⟨?_, ?_⟩
    · rw [InMemoryStore.replayed_append]
      exact recorded.linked.foldl_changes changes
    · refine (funext fun c => InMemoryStore.replayed_parentEntry changes c).trans ?_
      refine recorded.parents.trans (Eq.symm ?_)
      apply recordedEntries_congr
      · rfl
      · exact if_neg first
      · rfl

theorem Recorded.took (recorded : t.Recorded) (serving : t.Serving) (grown : t.Grown) (window : t.Window shards)
    (took : t.Took shards a t') (undisturbed : t.Undisturbed a) : t'.Recorded := by
  have entered : ∀ {topology : Topology}, t.topology.record = none → topology.record = none →
      ({ t with topology } : Tenant).recordedEntries = t.recordedEntries :=
    fun before after => (recordedEntries_pending (.inl after)).trans (recordedEntries_pending (.inl before)).symm
  cases took with
  | apply => exact recorded.same rfl (recordedEntries_congr rfl rfl (InMemoryStore.sameTree_parentEntry (Memory.apply_sameTree ..)))
  | send =>
      refine recorded.same rfl (recordedEntries_congr rfl (LogWriter.push_outcomes ?_) rfl)
      rw [WalCommand.write_sender]
      exact fun same => by cases same
  | beginCompaction | submit =>
      exact recorded.same rfl (recordedEntries_congr rfl (LogWriter.push_outcomes fun same => by cases same) rfl)
  | create phase | delete phase | clear phase => exact recorded.same rfl (entered (by rw [phase]; rfl) rfl)
  | @unlink id rs phase =>
      refine recorded.same rfl ?_
      rw [recordedEntries_pending (.inl rfl), recordedEntries_pending (t := t) (.inl (by rw [phase]; rfl))]
      funext c
      rw [InMemoryStore.parentEntry, InMemoryStore.unlink_getResource, InMemoryStore.parentEntry]
  | sendCreate phase | sendDelete phase =>
      refine recorded.same rfl ((recordedEntries_pending (.inr ?_)).trans ?_)
      · exact LogWriter.push_unanswered t.writer _
      · exact (recordedEntries_pending (.inl (by rw [phase]; rfl))).symm
  | @finishCreate id parentId name capacity bufferAfter phase outcome =>
      refine recorded.same rfl ?_
      rw [recordedEntries_pending (.inl rfl), recordedEntries_flushed (t := t) (by rw [phase]; rfl) outcome]
      funext c
      rw [InMemoryStore.create_parentEntry, Event.entriesAfter, Function.update_apply]
  | @finishDelete id phase outcome =>
      refine recorded.same rfl ?_
      rw [recordedEntries_pending (.inl rfl), recordedEntries_flushed (t := t) (by rw [phase]; rfl) outcome]
      exact InMemoryStore.removeResource_parentEntry id
  | abandon failing => exact absurd failing serving.unfailing
  | flush taken =>
      cases undisturbed
      exact recorded.flush serving grown taken
  | handle taken =>
      cases undisturbed
      rcases LogWriter.handle_whole taken serving.running with ⟨rest, head, same⟩ | ⟨events, rest, head, same⟩
      · rw [same]
        refine recorded.same rfl (recordedEntries_congr rfl ?_ rfl)
        exact if_neg (by simp [head, WalCommand.sender])
      · obtain ⟨submitted, snapshots, rfl, copied⟩ := window.compacts events (by rw [head]; exact List.mem_cons_self)
        have busy : t.compaction ≠ .idle := by rw [submitted]; exact fun same => by cases same
        have entered : .compactBegin ∉ t.writer.queue := by
          intro inside
          cases submitted.symm.trans (window.begins inside)
        have changes : ∀ ev ∈ t.writer.recording.getD [], ev.isChange := by
          cases recording : t.writer.recording with
          | none => exact List.forall_mem_nil _
          | some records => exact window.changes busy entered records recording
        obtain ⟨linked, parents⟩ := copied.mergeRecorded changes
        rw [same]
        refine ⟨linked, parents.trans ?_⟩
        rw [recordedEntries_pending (.inl (by simp only [window.quiet busy]; rfl))]
  | _ => exact recorded.same rfl rfl

/-! ### Runs -/

/-- What holds of a tenant on an engine that ran before it. -/
theorem on_hierarchy {e : Engine} (reachable : Engine.Reachable (fun _ _ => True) e) :
    (on e).Serving ∧ (on e).Grown ∧ (on e).Window shards ∧ (on e).Recorded := by
  obtain ⟨healthy, traced⟩ : e.Healthy ∧ e.Traced := by
    apply reachable.invariant (I := fun e => e.Healthy ∧ e.Traced)
    · exact fun clock ttl => ⟨Engine.start_healthy clock ttl, Engine.start_traced clock ttl⟩
    · exact fun _ move both possible _ => ⟨Engine.next_healthy both.1 move, both.2.next both.1 possible⟩
  have linked : e.store.Linked := healthy.consistent.linked
  have bounded : Forest.Bounded maxHierarchyDepth e.store.parentEntry := by
    intro r present
    rw [InMemoryStore.isSome_parentEntry] at present
    obtain ⟨rs, found⟩ := Option.isSome_iff_exists.mp present
    obtain ⟨line, lineage, within⟩ := reachable.wellFormedTree.ancestors r rs found
    refine ⟨line.length, within, InMemoryStore.depth_of_ancestors linked.getParent_eq lineage ?_⟩
    rw [InMemoryStore.isSome_parentEntry, found]
    rfl
  refine ⟨on_serving healthy.running, ⟨linked.planted bounded, fun _ _ _ _ _ _ same => (by cases same), fun _ _ same => by cases same⟩,
    ⟨fun busy => absurd rfl busy, fun inside => (by cases inside), fun busy => absurd rfl busy, fun _ _ same => (by cases same),
      fun _ _ _ same => (by cases same), fun _ inside => by cases inside⟩, traced.linked, ?_⟩
  rw [recordedEntries_pending (.inl rfl)]
  funext c
  change ((InMemoryStore.replayed e.log).getResource c).map _ = (e.store.getResource c).map _
  have related := traced.retains c
  cases live : e.store.getResource c with
  | none =>
      rw [live] at related
      rw [Outcome.rel_none related]
  | some rs =>
      rw [live] at related
      obtain ⟨recorded, found, keeps⟩ := Outcome.rel_some related
      rw [found, keeps.fields]
      rfl

/-- The parents that the log tells form a forest as well. -/
theorem Grown.recorded_bounded (grown : t.Grown) : Forest.Bounded maxHierarchyDepth t.recordedEntries := by
  have bounded := grown.planted.bounded
  unfold recordedEntries
  cases topology : t.topology with
  | idle => exact bounded
  | creating id parentId name capacity bufferAfter sent =>
      obtain ⟨absent, room⟩ := grown.creating _ _ _ _ _ _ topology
      cases sent with
      | false => exact bounded
      | true =>
          split
          · next record _ =>
              cases record
              exact bounded.insert absent room
          · exact bounded
  | deleting id stage =>
      have leaf := grown.deleting id stage topology
      split
      · next record _ =>
          cases stage <;> cases record
          exact bounded.erase leaf
      · exact bounded

/-- However requests, creates, deletes and compactions go on together, the resources in memory form
    a forest on which the table and both indexes agree, but for the resource that a delete has
    taken off its parent's list. They do so without exception where the log is replayed. -/
theorem forest_always {e : Engine} (reachable : Engine.Reachable (fun _ _ => True) e)
    (reached : Reaches (step shards) Undisturbed (on e) t) : t.memory.store.WellFormedForest t.leaving ∧
      ∀ order, (InMemoryStore.rebuilt t.writer.file order).WellFormedForest none := by
  have holds : t.Serving ∧ t.Grown ∧ t.Window shards ∧ t.Recorded := by
    apply reached.invariant (I := fun t => t.Serving ∧ t.Grown ∧ t.Window shards ∧ t.Recorded) (on_hierarchy reachable)
    rintro t a t' ⟨serving, grown, window, recorded⟩ undisturbed taken
    have step := Tenant.took taken
    exact ⟨serving.took step undisturbed.harmless, grown.took step (serving.goesOn step), window.took serving grown step undisturbed,
      recorded.took serving grown window step undisturbed⟩
  obtain ⟨_, grown, _, recorded⟩ := holds
  have bounded := grown.recorded_bounded
  rw [← recorded.parents] at bounded
  have replayed := (recorded.linked.planted bounded).wellFormedForest
  refine ⟨grown.planted.wellFormedForest, fun order => ?_⟩
  rw [InMemoryStore.rebuilt, InMemoryStore.foldl_detachOrphan replayed.parentExists]
  exact replayed

/-- A room in another. -/
def nested : Engine := bareRoom.next (.op (.createResource 2 (some 1) none 1 none))

theorem nested_reachable : Engine.Reachable (fun _ _ => True) nested := .step _ bareRoom_reachable trivial trivial

/-- The inner room while it is being deleted. -/
def unlinked : Tenant := (Machine.run (step oneShard) [.delete 2, .unlink] (on nested)).getD (on nested)

theorem unlinked_reached : Reaches (step oneShard) Undisturbed (on nested) unlinked := by
  have possible : ((on nested).step oneShard (.delete 2)).isSome := by decide +kernel
  obtain ⟨t, began⟩ := Option.isSome_iff_exists.mp possible
  have further : (Machine.run (step oneShard) [.delete 2, .unlink] (on nested)).isSome := by decide +kernel
  obtain ⟨t', ran⟩ := Option.isSome_iff_exists.mp further
  have reached : Reaches (step oneShard) Undisturbed (on nested) t := .next (.delete 2) .start rfl began
  have same : unlinked = t' := by rw [unlinked, ran]; rfl
  rw [same]
  rw [Machine.run, began] at ran
  have allowed : ∀ a ∈ [Action.unlink], ∀ s, Undisturbed s a := List.forall_mem_singleton.mpr fun _ => trivial
  exact reached.run allowed ran

theorem unlinked_forest : unlinked.memory.store.WellFormedForest (some 2) ∧
    ∀ order, (InMemoryStore.rebuilt unlinked.writer.file order).WellFormedForest none := by
  have both := forest_always nested_reachable unlinked_reached
  have leaving : unlinked.leaving = some 2 := by decide +kernel
  rwa [leaving] at both

/-- The room still names its parent, whose list of children does not have it. -/
theorem unlinked_not_listed : Engine.Reachable (fun _ _ => True) nested ∧
    Reaches (step oneShard) Undisturbed (on nested) unlinked ∧ ¬ unlinked.memory.store.WellFormedForest none := by
  refine ⟨nested_reachable, unlinked_reached, fun forest => ?_⟩
  have under : unlinked.memory.store.getParent 2 = some 1 := by decide +kernel
  have childless : unlinked.memory.store.getChildren 1 = [] := by decide +kernel
  have listed := (forest.children 1 2).mpr ⟨under, fun same => by cases same⟩
  rw [childless] at listed
  cases listed

end Tenant

end Deltat
