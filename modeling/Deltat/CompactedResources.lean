import Deltat.CompactionWindow
import Deltat.EntityIds

/-! # The resources that a compaction keeps

A create or a delete changes the table only after its record is flushed, and no lock of it holds
up a compaction, which reads the table. Where the record is flushed in front of the window and
the table is read behind it but in front of the change, the rewritten file has neither. As long as
no create or delete straddles the two, the file has the resources that the records tell.
-/

namespace Deltat

open Lib Machine

/-! ## What records say of a resource -/

/-- What a record says of whether a resource is there. -/
def Event.stands (r : Ulid) : Event → Option Bool
  | resourceCreated id _ _ _ _ => if id = r then some true else none
  | resourceDeleted id => if id = r then some false else none
  | _ => none

/-- The last that records say of it. -/
def lastWord (r : Ulid) (records : List Event) : Option Bool := (records.filterMap (Event.stands r)).getLast?

section Records

variable {r : Ulid} {ev : Event} {records later : List Event}

theorem Event.stands_change (change : ev.isChange) : ev.stands r = none := by
  cases ev with
  | resourceCreated | resourceDeleted => cases change
  | _ => rfl

theorem lastWord_append : lastWord r (records ++ later) = (lastWord r later).or (lastWord r records) := by
  rw [lastWord, List.filterMap_append, List.getLast?_append]
  rfl

theorem lastWord_singleton : lastWord r [ev] = ev.stands r := by
  cases said : ev.stands r <;> simp [lastWord, said]

theorem lastWord_eq_none : lastWord r records = none ↔ ∀ ev ∈ records, ev.stands r = none := by
  rw [lastWord, List.getLast?_eq_none_iff, List.filterMap_eq_nil_iff]

theorem lastWord_changes (changes : ∀ ev ∈ records, ev.isChange) : lastWord r records = none :=
  lastWord_eq_none.mpr fun ev inside => Event.stands_change (changes ev inside)

/-- The last word is some record's. -/
theorem stands_of_lastWord {word : Bool} (last : lastWord r records = some word) : ∃ ev ∈ records, ev.stands r = some word :=
  List.mem_filterMap.mp (List.mem_of_getLast? last)

/-- Where all that is said is the same, it is the last word. -/
theorem lastWord_eq_some {word : Bool} (same : ∀ ev ∈ records, ∀ other, ev.stands r = some other → other = word)
    (inside : ev ∈ records) (said : ev.stands r = some word) : lastWord r records = some word := by
  cases last : lastWord r records with
  | none => cases said.symm.trans (lastWord_eq_none.mp last ev inside)
  | some other =>
      obtain ⟨ev', member, said'⟩ := stands_of_lastWord last
      rw [same ev' member other said']

/-- A log has the resources whose last record creates them. -/
theorem InMemoryStore.isSome_replayed (events : List Event) :
    ((replayed events).parentEntry r).isSome ↔ lastWord r events = some true := by
  induction events using List.reverseRecOn with
  | nil => exact ⟨fun there => (by cases there), fun last => by cases last⟩
  | append_singleton before ev ih =>
      rw [replayed_entriesAfter, lastWord_append, lastWord_singleton]
      cases ev with
      | resourceCreated id =>
          by_cases own : id = r
          · subst own
            simp [Event.entriesAfter, Event.stands]
          · simpa [Event.entriesAfter, Event.stands, own, Function.update_of_ne (Ne.symm own)] using ih
      | resourceDeleted id =>
          by_cases own : id = r
          · subst own
            simp [Event.entriesAfter, Event.stands]
          · simpa [Event.entriesAfter, Event.stands, own, Function.update_of_ne (Ne.symm own)] using ih
      | _ => exact ih

/-- A restart takes none of them away. -/
theorem InMemoryStore.isSome_rebuilt (events : List Event) (order : List Ulid) :
    ((rebuilt events order).getResource r).isSome ↔ lastWord r events = some true := by
  have kept : ∀ (order : List Ulid) (s : InMemoryStore),
      ((order.foldl detachOrphan s).getResource r).isSome = (s.getResource r).isSome := by
    intro order
    induction order with
    | nil => exact fun _ => rfl
    | cons id rest ih =>
        intro s
        rw [List.foldl_cons, ih, ← Option.isSome_map (f := ResourceState.intervals), detachOrphan_intervals, Option.isSome_map]
  rw [rebuilt, kept, ← isSome_parentEntry, isSome_replayed]

end Records

/-! ## What a merge says of it -/

namespace Compaction

variable {snapshots : List ResourceState} {snapshot recorded : List Event} {r : Ulid}

/-- Where an id that the snapshot carries is last created in the record, the record does not delete
    it, and the snapshot creates it. -/
def KeepsCreated (snapshot recorded : List Event) : Prop :=
  ∀ r ∈ snapshot.filterMap Event.addedId, lastWord r recorded = some true →
    (∀ ev ∈ recorded, ev.stands r ≠ some false) ∧ lastWord r snapshot = some true

/-- What a record says is what its steps say. -/
theorem filterMap_perResource (recorded : List Event) :
    (recorded.flatMap Event.perResource).filterMap (Event.stands r) = recorded.filterMap (Event.stands r) := by
  induction recorded with
  | nil => rfl
  | cons ev rest ih =>
      rw [List.flatMap_cons, List.filterMap_append, ih, List.filterMap_cons]
      cases ev with
      | holdsCommitted commits =>
          have silent : (Event.holdsCommitted commits).perResource.filterMap (Event.stands r) = [] :=
            List.filterMap_eq_nil_iff.mpr fun step inside => Event.stands_change (Event.perResource_isChange rfl inside)
          rw [silent]
          rfl
      | resourceCreated id | resourceDeleted id => by_cases own : id = r <;> simp [Event.perResource, Event.stands, own]
      | _ => rfl

/-- Of an id that the snapshot carries, a merge keeps only the deletes. -/
theorem filterMap_kept (recorded : List Event) {carried : List Ulid} :
    (recorded.filter fun event => event.addedId.all (!carried.contains ·)).filterMap (Event.stands r) =
      (recorded.filterMap (Event.stands r)).filter fun word => !(word && carried.contains r) := by
  rw [List.filterMap_filter, List.filter_filterMap]
  refine List.filterMap_congr fun ev _ => ?_
  cases ev with
  | resourceCreated id =>
      by_cases own : id = r
      · subst own
        by_cases inside : id ∈ carried <;> simp [Event.addedId, Event.stands, inside, Option.filter]
      · simp [Event.addedId, Event.stands, own]
  | resourceDeleted id => by_cases own : id = r <;> simp [Event.addedId, Event.stands, own, Option.filter]
  | _ => exact ite_self _

theorem lastWord_snapshot : lastWord r (snapshotEvents snapshots) = if r ∈ snapshots.map (·.id) then some true else none := by
  have created : ∀ ev ∈ snapshotEvents snapshots, ∀ word, ev.stands r = some word →
      word = true ∧ r ∈ snapshots.map (·.id) := by
    intro ev inside word said
    obtain ⟨snap, sorted, inside⟩ := List.mem_flatMap.mp inside
    have member := (List.perm_insertionSort _ _).mem_iff.mp sorted
    rcases List.mem_cons.mp inside with rfl | interval
    · simp only [Event.stands] at said
      split at said
      · next own =>
          cases said
          exact ⟨rfl, own ▸ List.mem_map_of_mem member⟩
      · cases said
    · obtain ⟨i, _, rfl⟩ := List.mem_map.mp interval
      rw [Event.stands_change (toEvent_change snap.id i)] at said
      cases said
  split
  · next copied =>
      obtain ⟨snap, member, rfl⟩ := List.mem_map.mp copied
      have inside : Event.resourceCreated snap.id snap.parentId snap.name snap.capacity snap.bufferAfter ∈
          snapshotEvents snapshots :=
        List.mem_flatMap.mpr ⟨snap, (List.perm_insertionSort _ _).mem_iff.mpr member, List.mem_cons_self⟩
      exact lastWord_eq_some (fun ev there word said => (created ev there word said).1) inside (if_pos rfl)
  · next absent =>
      refine lastWord_eq_none.mpr fun ev inside => ?_
      cases said : ev.stands r with
      | none => rfl
      | some word => exact absurd (created ev inside word said).2 absent

/-- A resource that the snapshot creates is among the ids that it carries. -/
theorem mem_addedIds (copied : r ∈ snapshots.map (·.id)) : r ∈ (snapshotEvents snapshots).filterMap Event.addedId := by
  obtain ⟨snap, member, rfl⟩ := List.mem_map.mp copied
  refine List.mem_filterMap.mpr ⟨.resourceCreated snap.id snap.parentId snap.name snap.capacity snap.bufferAfter, ?_, rfl⟩
  exact List.mem_flatMap.mpr ⟨snap, (List.perm_insertionSort _ _).mem_iff.mpr member, List.mem_cons_self⟩

/-- The merged file has the last word of the record on a resource, and that of the snapshot where
    the record says nothing. -/
theorem lastWord_merged (keeps : KeepsCreated (snapshotEvents snapshots) recorded) :
    lastWord r (mergeRecorded (snapshotEvents snapshots) recorded) = some true ↔
      (lastWord r recorded).or (lastWord r (snapshotEvents snapshots)) = some true := by
  let kept := (recorded.filterMap (Event.stands r)).filter fun word =>
    !(word && ((snapshotEvents snapshots).filterMap Event.addedId).contains r)
  have merged : lastWord r (mergeRecorded (snapshotEvents snapshots) recorded) =
      kept.getLast?.or (lastWord r (snapshotEvents snapshots)) := by
    unfold mergeRecorded
    rw [lastWord_append]
    simp only [lastWord, filterMap_kept, filterMap_perResource, kept]
  rw [merged]
  by_cases carried : r ∈ (snapshotEvents snapshots).filterMap Event.addedId
  · have deletes : kept = (recorded.filterMap (Event.stands r)).filter (!·) := by
      simp [kept, carried]
    rw [deletes]
    cases last : lastWord r recorded with
    | none =>
        have silent : recorded.filterMap (Event.stands r) = [] := List.getLast?_eq_none_iff.mp last
        rw [silent]
        rfl
    | some word =>
        cases word with
        | true =>
            obtain ⟨undeleted, created⟩ := keeps r carried last
            have none : (recorded.filterMap (Event.stands r)).filter (!·) = [] := by
              refine List.filter_eq_nil_iff.mpr fun word said => ?_
              obtain ⟨ev, inside, said⟩ := List.mem_filterMap.mp said
              cases word with
              | true => exact fun same => by cases same
              | false => exact absurd said (undeleted ev inside)
            rw [none, created]
            rfl
        | false =>
            -- The last delete survives.
            obtain ⟨front, whole⟩ := List.getLast?_eq_some_iff.mp last
            rw [whole]
            simp
  · have all : kept = recorded.filterMap (Event.stands r) := by
      simp [kept, carried]
    rw [all]
    rfl

end Compaction

/-! ## The tenant -/

/-- Whether a compaction reads the table. -/
def Compacting.reads : Compacting → Bool
  | listing .. | snapshotting .. => true
  | _ => false

namespace Tenant

variable {shards : Shards} {t t' : Tenant} {a : Action} {stored : List Event} {r : Ulid}

/-- Whether a resource is there by all that is queued: a create or a delete queues its record
    before it changes the table. -/
def standing (t : Tenant) (r : Ulid) : Bool :=
  (t.topology.record.bind (Event.stands r)).getD (t.memory.store.parentEntry r).isSome

theorem standing_table (still : t.topology.record = none) : t.standing r = (t.memory.store.parentEntry r).isSome := by
  rw [standing, still]
  rfl

theorem standing_record {ev : Event} (record : t.topology.record = some ev) :
    t.standing r = (ev.stands r).getD (t.memory.store.parentEntry r).isSome := by
  rw [standing, record]
  rfl

/-- A step queues records, and a resource is there by what they say and what was queued before. One
    of which they say nothing stays in the table. -/
structure Continues (t t' : Tenant) (records : List Event) : Prop where
  handed : t'.writer.handed = t.writer.handed ++ records
  window : t.compaction.reads → t'.inWindow = t.inWindow ++ records
  standing : ∀ r, t'.standing r = (lastWord r records).getD (t.standing r)
  table : ∀ r, lastWord r records = none → t.standing r → (t.memory.store.parentEntry r).isSome →
    (t'.memory.store.parentEntry r).isSome

theorem Continues.quiet (handed : t'.writer.handed = t.writer.handed)
    (window : t.compaction.reads → t'.inWindow = t.inWindow) (record : t'.topology.record = t.topology.record)
    (entries : t'.memory.store.parentEntry = t.memory.store.parentEntry) : t.Continues t' [] where
  handed := handed.trans (List.append_nil _).symm
  window reads := (window reads).trans (List.append_nil _).symm
  standing r := by
    rw [Tenant.standing, Tenant.standing, record, entries]
    rfl
  table r _ _ present := by
    rw [entries]
    exact present

theorem Serving.pushes (serving : t.Serving) {command : WalCommand} (writer : t'.writer = t.writer.push command)
    (entries : t'.memory.store.parentEntry = t.memory.store.parentEntry)
    (standing : ∀ r, t'.standing r = (lastWord r command.records).getD (t.standing r)) :
    t.Continues t' command.records where
  handed := by
    rw [writer]
    rfl
  window _ := serving.inWindow_push writer
  standing := standing
  table r _ _ present := by
    rw [entries]
    exact present

/-- A compaction that reads the table is recorded, and has nothing queued. -/
theorem Phased.reads_recorded (phased : t.Phased) (reads : t.compaction.reads) : t.writer.recording.isSome ∧
    .compactBegin ∉ t.writer.queue ∧ ∀ events, .compact events ∉ t.writer.queue := by
  have entered : t.compaction ≠ .idle ∧ t.compaction ≠ .beginning ∧ t.compaction ≠ .submitted := by
    cases phase : t.compaction with
    | listing | snapshotting => exact ⟨fun same => (by cases same), fun same => (by cases same), fun same => by cases same⟩
    | idle | beginning | submitted =>
        rw [phase] at reads
        cases reads
  obtain ⟨busy, begun, unmerged⟩ := entered
  obtain ⟨records, recording⟩ := phased.recorded busy begun fun submitted => absurd submitted unmerged
  refine ⟨by rw [recording]; rfl, fun inside => begun (phased.begins inside), fun events inside => ?_⟩
  exact unmerged (phased.merges events inside)

theorem Serving.continues (serving : t.Serving) (phased : t.Phased) (took : t.Took shards a t') (harmless : a.Harmless) :
    ∃ records, t.Continues t' records := by
  have changes : ∀ {command : WalCommand}, t'.writer = t.writer.push command → t'.topology = t.topology →
      t'.memory = t.memory → (∀ ev ∈ command.records, ev.isChange) → ∃ records, t.Continues t' records := by
    intro command writer topology memory changes
    refine ⟨_, serving.pushes writer (by rw [memory]) fun r => ?_⟩
    rw [lastWord_changes changes, Tenant.standing, Tenant.standing, topology, memory]
    rfl
  -- The record of a create or a delete is queued.
  have sent : ∀ {ev : Event}, t'.writer = t.writer.push (.append .topology ev) → t'.memory = t.memory →
      t.topology.record = none → t'.topology.record = some ev → ∃ records, t.Continues t' records := by
    intro ev writer memory none record
    refine ⟨_, serving.pushes writer (by rw [memory]) fun r => ?_⟩
    rw [standing_record record, standing_table none, memory, WalCommand.records, lastWord_singleton]
  -- It is flushed, and the table changes as it says.
  have finished : ∀ ev : Event, t'.writer = t.writer → t.topology.record = some ev → t'.topology.record = none →
      t'.memory.store.parentEntry = ev.entriesAfter t.memory.store.parentEntry →
      (∀ r, ((ev.entriesAfter t.memory.store.parentEntry) r).isSome =
        (ev.stands r).getD (t.memory.store.parentEntry r).isSome) → ∃ records, t.Continues t' records := by
    intro ev writer record none entries after
    have same : ∀ r, t'.standing r = t.standing r := by
      intro r
      rw [standing_table none, standing_record record, entries, after]
    refine ⟨[], ?_, fun _ => ?_, same, fun r _ standing _ => ?_⟩
    · rw [writer, List.append_nil]
    · rw [inWindow, writer, List.append_nil]
      rfl
    · rwa [← standing_table none, same]
  cases took with
  | send phase =>
      refine changes rfl rfl rfl ?_
      rw [WalCommand.write_records]
      exact ((serving.bound _).decided _ _ _ phase).1
  | beginCompaction | submit => exact changes rfl rfl rfl (List.forall_mem_nil _)
  | sendCreate phase | sendDelete phase => exact sent rfl rfl (by rw [phase]; rfl) rfl
  | @finishCreate id parentId name capacity bufferAfter phase =>
      refine finished (.resourceCreated id parentId name capacity bufferAfter) rfl (by rw [phase]; rfl) rfl ?_ fun r => ?_
      · funext c
        rw [InMemoryStore.create_parentEntry, Event.entriesAfter, Function.update_apply]
      · by_cases own : r = id
        · subst own
          simp [Event.entriesAfter, Event.stands]
        · simp [Event.entriesAfter, Event.stands, Function.update_of_ne own, Ne.symm own]
  | @finishDelete id phase =>
      refine finished (.resourceDeleted id) rfl (by rw [phase]; rfl) rfl (InMemoryStore.removeResource_parentEntry id) fun r => ?_
      by_cases own : r = id
      · subst own
        simp [Event.entriesAfter, Event.stands]
      · simp [Event.entriesAfter, Event.stands, Function.update_of_ne own, Ne.symm own]
  | abandon failing => exact absurd failing serving.unfailing
  | apply => exact ⟨[], .quiet rfl (fun _ => rfl) rfl (InMemoryStore.sameTree_parentEntry (Memory.apply_sameTree ..))⟩
  | create phase | delete phase | clear phase => exact ⟨[], .quiet rfl (fun _ => rfl) (by rw [phase]; rfl) rfl⟩
  | unlink phase =>
      refine ⟨[], .quiet rfl (fun _ => rfl) (by rw [phase]; rfl) (funext fun c => ?_)⟩
      rw [InMemoryStore.parentEntry, InMemoryStore.unlink_getResource, InMemoryStore.parentEntry]
  | flush taken worked =>
      have took : t.Took shards (.flush _ _) _ := .flush taken worked
      cases harmless
      refine ⟨[], .quiet ?_ (fun reads => ?_) rfl rfl⟩
      · rw [LogWriter.flush_whole taken serving.attached]
        rfl
      · exact (serving.inWindow_flush taken (serving.took took rfl)).1 (phased.reads_recorded reads).1
  | handle taken =>
      rcases LogWriter.handle_harmless taken harmless serving.running serving.attached with
        ⟨_, head, whole⟩ | ⟨events, _, head, _, _, whole⟩
      · refine ⟨[], .quiet (by rw [whole]; rfl) (fun reads => ?_) rfl rfl⟩
        exact absurd (by rw [head]; exact List.mem_cons_self) (phased.reads_recorded reads).2.1
      · refine ⟨[], .quiet (by rw [whole]; rfl) (fun reads => ?_) rfl rfl⟩
        exact absurd (by rw [head]; exact List.mem_cons_self) ((phased.reads_recorded reads).2.2 events)
  | _ => exact ⟨[], .quiet rfl (fun _ => rfl) rfl rfl⟩

/-! ### What a compaction has read -/

/-- No create or delete whose record is in front of the window of a compaction changes the table
    behind the look at it, no compaction fails behind its rename, and its merge keeps what was
    created. -/
def NoneStraddles (shards : Shards) (t : Tenant) : Action → Prop
  | .list _ => ∀ visited ids r ev, t.compaction = .listing visited ids → (shards.of r).val = visited →
      t.topology.record = some ev → ev.stands r = some true → ev ∈ t.inWindow
  | .lookSnapshot => ∀ snapshots r rest ev, t.compaction = .snapshotting snapshots none (r :: rest) →
      t.topology.record = some ev → ev.stands r = some false → ev ∈ t.inWindow
  | .handle fault => (∀ f, fault = some f → f.renamed = false) ∧ (fault = none → ∀ snapshot behind,
      t.writer.queue = .compact snapshot :: behind → Compaction.KeepsCreated snapshot (t.writer.recording.getD []))
  | _ => True

/-- The resources that a compaction has copied or looked up. -/
def taken (snapshots : List ResourceState) (found : Option Handle) : List Ulid :=
  snapshots.map (·.id) ++ (found.map Prod.fst).toList

/-- A compaction has read what is there by all that is queued, except where the window says more. -/
structure Accounted (shards : Shards) (stored : List Event) (t : Tenant) : Prop where
  serving : t.Serving
  phased : t.Phased
  named : ∀ h rs, t.memory.read h = some rs → rs.id = h.1
  told : ∀ r, lastWord r (stored ++ t.writer.handed) = some true ↔ t.standing r
  listed : ∀ visited ids, t.compaction = .listing visited ids → ∀ r, lastWord r t.inWindow = none →
    (shards.of r).val < visited → t.standing r → r ∈ ids ∧ (t.memory.store.parentEntry r).isSome
  copied : ∀ snapshots found rest, t.compaction = .snapshotting snapshots found rest →
    ∀ r, lastWord r t.inWindow = none →
      (t.standing r → r ∈ taken snapshots found ∨ r ∈ rest ∧ (t.memory.store.parentEntry r).isSome) ∧
      (r ∈ taken snapshots found → t.standing r)
  compacts : ∀ ahead events behind, t.writer.queue = ahead ++ .compact events :: behind →
    ∃ snapshots, events = Compaction.snapshotEvents snapshots ∧
      ∀ r, lastWord r (t.writer.recording.getD [] ++ ahead.flatMap WalCommand.records) = none →
        (r ∈ snapshots.map (·.id) ↔
          lastWord r (stored ++ (t.writer.flushed ++ ahead.flatMap WalCommand.records)) = some true)

/-- What a step says nothing of, the window said nothing of before. -/
theorem Continues.still {records : List Event} (continues : t.Continues t' records) (reads : t.compaction.reads)
    (quiet : lastWord r t'.inWindow = none) : lastWord r t.inWindow = none ∧ t'.standing r = t.standing r ∧
      (t.standing r → (t.memory.store.parentEntry r).isSome → (t'.memory.store.parentEntry r).isSome) := by
  rw [continues.window reads, lastWord_append, Option.or_eq_none_iff] at quiet
  refine ⟨quiet.2, ?_, continues.table r quiet.1⟩
  rw [continues.standing, quiet.1]
  rfl

/-- A resource that is there and not in the table is being created. -/
theorem standing_absent (standing : t.standing r) (absent : ¬ (t.memory.store.parentEntry r).isSome) :
    ∃ ev, t.topology.record = some ev ∧ ev.stands r = some true := by
  cases record : t.topology.record with
  | none =>
      rw [standing_table record] at standing
      exact absurd standing absent
  | some ev =>
      rw [standing_record record] at standing
      cases said : ev.stands r with
      | none =>
          rw [said] at standing
          exact absurd standing absent
      | some word =>
          rw [said] at standing
          exact ⟨ev, rfl, said.trans (congrArg some standing)⟩

/-- One that is in the table and not there is being deleted. -/
theorem standing_present (gone : ¬ t.standing r) (present : (t.memory.store.parentEntry r).isSome) :
    ∃ ev, t.topology.record = some ev ∧ ev.stands r = some false := by
  cases record : t.topology.record with
  | none =>
      rw [standing_table record] at gone
      exact absurd present gone
  | some ev =>
      rw [standing_record record] at gone
      cases said : ev.stands r with
      | none =>
          rw [said] at gone
          exact absurd present gone
      | some word =>
          rw [said] at gone
          exact ⟨ev, rfl, said.trans (congrArg some (Bool.eq_false_of_not_eq_true gone))⟩

theorem Accounted.listed_took (accounted : t.Accounted shards stored) {records : List Event}
    (continues : t.Continues t' records) (took : t.Took shards a t') (apart : t.NoneStraddles shards a)
    {visited : Nat} {ids : List Ulid} (phase' : t'.compaction = .listing visited ids)
    (quiet : lastWord r t'.inWindow = none) (below : (shards.of r).val < visited) (standing : t'.standing r) :
    r ∈ ids ∧ (t'.memory.store.parentEntry r).isSome := by
  have same : t.compaction = .listing visited ids → r ∈ ids ∧ (t'.memory.store.parentEntry r).isSome := by
    intro phase
    obtain ⟨silent, still, table⟩ := continues.still (by rw [phase]; rfl) quiet
    rw [still] at standing
    obtain ⟨listed, present⟩ := accounted.listed _ _ phase r silent below standing
    exact ⟨listed, table standing present⟩
  cases took with
  | enterWindow =>
      cases phase'
      exact absurd below (Nat.not_lt_zero _)
  | @list visited before ids phase _ shard =>
      cases phase'
      by_cases earlier : (shards.of r).val < visited
      · obtain ⟨listed, present⟩ := accounted.listed _ _ phase r quiet earlier standing
        exact ⟨List.mem_append_left _ listed, present⟩
      · have here : (shards.of r).val = visited := by omega
        have present : (t.memory.store.parentEntry r).isSome := by
          by_contra absent
          obtain ⟨ev, record, said⟩ := standing_absent standing absent
          have inside := apart visited before r ev phase here record said
          cases said.symm.trans (lastWord_eq_none.mp quiet ev inside)
        refine ⟨List.mem_append_right _ (shard.mem_iff.mpr (List.mem_filter.mpr ⟨?_, by simpa using here⟩)), present⟩
        rwa [Engine.mem_resourceIds, ← InMemoryStore.isSome_parentEntry]
  | beginCompaction | allListed | lookSnapshot | snapshot | submit | finishCompaction => cases phase'
  | _ => exact same phase'

theorem Accounted.copied_took (accounted : t.Accounted shards stored) {records : List Event}
    (continues : t.Continues t' records) (took : t.Took shards a t') (apart : t.NoneStraddles shards a)
    {snapshots : List ResourceState} {found : Option Handle} {rest : List Ulid}
    (phase' : t'.compaction = .snapshotting snapshots found rest) (quiet : lastWord r t'.inWindow = none) :
    (t'.standing r → r ∈ taken snapshots found ∨ r ∈ rest ∧ (t'.memory.store.parentEntry r).isSome) ∧
      (r ∈ taken snapshots found → t'.standing r) := by
  have same : t.compaction = .snapshotting snapshots found rest →
      (t'.standing r → r ∈ taken snapshots found ∨ r ∈ rest ∧ (t'.memory.store.parentEntry r).isSome) ∧
        (r ∈ taken snapshots found → t'.standing r) := by
    intro phase
    obtain ⟨silent, still, table⟩ := continues.still (by rw [phase]; rfl) quiet
    obtain ⟨covered, there⟩ := accounted.copied _ _ _ phase r silent
    rw [still]
    refine ⟨fun standing => ?_, there⟩
    exact (covered standing).imp_right fun left => ⟨left.1, table standing left.2⟩
  cases took with
  | allListed phase =>
      cases phase'
      refine ⟨fun standing => .inr ?_, fun inside => absurd inside List.not_mem_nil⟩
      exact accounted.listed _ _ phase r quiet (shards.of r).isLt standing
  | @lookSnapshot snapshots rid rest phase =>
      cases phase'
      obtain ⟨covered, there⟩ := accounted.copied _ _ _ phase r quiet
      have before : taken snapshots none = snapshots.map (·.id) := List.append_nil _
      rw [before] at covered there
      unfold Memory.lookUp
      split
      · next present =>
          refine ⟨fun standing => ?_, fun inside => ?_⟩
          · rcases covered standing with copied | ⟨left, table⟩
            · exact .inl (List.mem_append_left _ copied)
            · rcases List.mem_cons.mp left with rfl | later
              · exact .inl (List.mem_append_right _ (List.mem_singleton.mpr rfl))
              · exact .inr ⟨later, table⟩
          · rcases List.mem_append.mp inside with copied | now
            · exact there copied
            · cases List.mem_singleton.mp now
              by_contra gone
              have table : (t.memory.store.parentEntry rid).isSome := by
                rw [InMemoryStore.isSome_parentEntry]
                exact present
              obtain ⟨ev, record, said⟩ := standing_present gone table
              have inside := apart snapshots rid rest ev phase record said
              cases said.symm.trans (lastWord_eq_none.mp quiet ev inside)
      · next absent =>
          rw [before]
          refine ⟨fun standing => ?_, there⟩
          rcases covered standing with copied | ⟨left, table⟩
          · exact .inl copied
          · rcases List.mem_cons.mp left with rfl | later
            · rw [InMemoryStore.isSome_parentEntry] at table
              exact absurd table absent
            · exact .inr ⟨later, table⟩
  | @snapshot snapshots h rest rs phase _ present =>
      cases phase'
      have moved : taken (snapshots ++ [rs]) none = taken snapshots (some h) := by
        simp [taken, accounted.named h rs present]
      rw [moved]
      exact accounted.copied _ _ _ phase r quiet
  | beginCompaction | enterWindow | list | submit | finishCompaction => cases phase'
  | _ => exact same phase'

theorem Accounted.compacts_took (accounted : t.Accounted shards stored) (took : t.Took shards a t') (harmless : a.Harmless)
    {ahead behind : List WalCommand} {events : List Event}
    (queue : t'.writer.queue = ahead ++ .compact events :: behind) :
    ∃ snapshots, events = Compaction.snapshotEvents snapshots ∧
      ∀ r, lastWord r (t'.writer.recording.getD [] ++ ahead.flatMap WalCommand.records) = none →
        (r ∈ snapshots.map (·.id) ↔
          lastWord r (stored ++ (t'.writer.flushed ++ ahead.flatMap WalCommand.records)) = some true) := by
  have serving := accounted.serving
  rcases accounted.phased.compact_took serving took harmless queue with
    ⟨snapshots, rfl, phase, rfl, rfl, rfl⟩ | ⟨ahead₀, behind₀, before, window, flushed, _⟩
  · cases took with
    | submit =>
        refine ⟨snapshots, rfl, fun r quiet => ?_⟩
        have silent : lastWord r t.inWindow = none := by
          rw [serving.inWindow_eq]
          exact quiet
        have handed : t.writer.handed = t.writer.flushed ++ t.writer.queue.flatMap WalCommand.records := by
          rw [serving.queued.front.handed, serving.queued.front.queued serving.running]
        have told := accounted.told r
        rw [handed] at told
        refine Iff.trans ?_ told.symm
        obtain ⟨covered, there⟩ := accounted.copied _ _ _ phase r silent
        have copied : taken snapshots none = snapshots.map (·.id) := List.append_nil _
        rw [copied] at covered there
        exact ⟨there, fun standing => (covered standing).resolve_right fun left => List.not_mem_nil left.1⟩
  · rw [window, flushed]
    exact accounted.compacts _ _ _ before

theorem Accounted.took (accounted : t.Accounted shards stored) (took : t.Took shards a t') (harmless : a.Harmless)
    (apart : t.NoneStraddles shards a) : t'.Accounted shards stored := by
  obtain ⟨records, continues⟩ := accounted.serving.continues accounted.phased took harmless
  have routed : t.Routed := fun i p pending => ((accounted.serving.bound i).pending p pending).1
  refine ⟨accounted.serving.took took harmless, accounted.phased.took accounted.serving took harmless, fun h rs found => ?_,
    fun r => ?_, fun _ _ phase r quiet below standing => ?_, fun _ _ _ phase r quiet => ?_, fun _ _ _ queue => ?_⟩
  · rcases took.read routed found with before | ⟨_, _, old, _, before, rfl⟩ | ⟨_, _, _, _, rfl⟩
    · exact accounted.named h rs before
    · rw [ResourceState.applySingle_id]
      exact accounted.named h old before
    · rfl
  · rw [continues.handed, ← List.append_assoc, lastWord_append, continues.standing]
    cases lastWord r records with
    | none => exact accounted.told r
    | some word => simp
  · exact accounted.listed_took continues took apart phase quiet below standing
  · exact accounted.copied_took continues took apart phase quiet
  · exact accounted.compacts_took took harmless queue

/-! ### The file -/

/-- The file has the resources that the flushed records tell. -/
def FileTells (stored : List Event) (t : Tenant) : Prop :=
  ∀ r, lastWord r t.writer.file = some true ↔ lastWord r (stored ++ t.writer.flushed) = some true

theorem Accounted.file_took (accounted : t.Accounted shards stored) (tells : t.FileTells stored) (took : t.Took shards a t')
    (harmless : a.Harmless) (apart : t.NoneStraddles shards a) : t'.FileTells stored := by
  have serving := accounted.serving
  have same : t'.writer.file = t.writer.file → t'.writer.flushed = t.writer.flushed → t'.FileTells stored := by
    intro file flushed r
    rw [file, flushed]
    exact tells r
  cases took with
  | flush taken =>
      cases harmless
      intro r
      rw [LogWriter.flush_whole taken serving.attached, lastWord_append, ← List.append_assoc, lastWord_append]
      cases lastWord r ((t.writer.queue.take _).flatMap WalCommand.records) with
      | none => exact tells r
      | some word => exact Iff.rfl
  | handle taken =>
      rcases LogWriter.handle_harmless taken harmless serving.running serving.attached with
        ⟨_, _, whole⟩ | ⟨events, behind, head, ok, merges, whole⟩
      · apply same <;> rw [whole] <;> rfl
      cases ok with
      | false => apply same <;> rw [whole] <;> rfl
      | true =>
          intro r
          obtain ⟨snapshots, rfl, copied⟩ := accounted.compacts [] _ _ head
          simp only [List.flatMap_nil, List.append_nil] at copied
          obtain ⟨front, flushed⟩ : ∃ front, t.writer.flushed = front ++ t.writer.recording.getD [] := by
            cases recording : t.writer.recording with
            | none => exact ⟨t.writer.flushed, (List.append_nil _).symm⟩
            | some window =>
                obtain ⟨front, same⟩ := accounted.phased.recent window recording
                exact ⟨front, same.symm⟩
          rw [whole]
          simp only [LogWriter.answer, ↓reduceIte]
          rw [Compaction.lastWord_merged (apart.2 (merges rfl) _ _ head)]
          cases last : lastWord r (t.writer.recording.getD []) with
          | none =>
              rw [Option.none_or, Compaction.lastWord_snapshot, ← copied r last]
              simp
          | some word =>
              rw [flushed, ← List.append_assoc, lastWord_append, last]
              exact Iff.rfl
  | _ => exact same rfl rfl

end Tenant

/-- A writer that has failed flushes nothing and keeps its file. -/
theorem LogWriter.Took.standstill {w w' : LogWriter} (took : w.Took w') (failed : w'.failed = true) :
    w'.file = w.file ∧ w'.flushed = w.flushed := by
  cases took with
  | flushed _ _ running | compacted _ running | swapped _ running | kept _ running => cases running.symm.trans failed
  | refused | began | stopped => exact ⟨rfl, rfl⟩

namespace Tenant

variable {shards : Shards} {t t' : Tenant} {a : Action}

theorem FileTells.stopped {stored : List Event} (tells : t.FileTells stored) (took : t.Took shards a t')
    (failed : t'.writer.failed = true) : t'.FileTells stored := by
  have kept : t'.writer.file = t.writer.file ∧ t'.writer.flushed = t.writer.flushed := by
    rcases took.writer with same | ⟨_, pushed⟩ | worked
    · rw [same]
      exact ⟨rfl, rfl⟩
    · rw [pushed]
      exact ⟨rfl, rfl⟩
    · exact worked.standstill failed
  intro r
  rw [kept.1, kept.2]
  exact tells r

/-! ### Runs -/

theorem on_accounted {e : Engine} (reachable : Engine.Reachable (fun _ _ => True) e) :
    (on e).Accounted shards e.log ∧ (on e).FileTells e.log := by
  have hierarchy : _ ∧ (on e).Grown ∧ (on e).Window shards ∧ _ := on_hierarchy reachable
  obtain ⟨serving, grown, _, recorded⟩ := hierarchy
  refine ⟨⟨serving, on_phased e, fun h rs found => ?_, fun r => ?_, fun _ _ phase => (by cases phase),
    fun _ _ _ phase => (by cases phase), fun ahead events behind queue => ?_⟩, fun r => ?_⟩
  · have found : (if h.2 = 0 then e.store.getResource h.1 else none) = some rs := found
    split at found
    · exact grown.planted.named _ _ found
    · cases found
  · have parents := recorded.parents
    rw [recordedEntries_pending (.inl rfl)] at parents
    have entries : (InMemoryStore.replayed e.log).parentEntry = e.store.parentEntry := parents
    have table : (on e).standing r = (e.store.parentEntry r).isSome := standing_table rfl
    have nothing : e.log ++ (on e).writer.handed = e.log := List.append_nil _
    rw [table, nothing, ← InMemoryStore.isSome_replayed, entries]
  · simp [on] at queue
  · have nothing : e.log ++ (on e).writer.flushed = e.log := List.append_nil _
    rw [nothing]
    rfl

theorem reached_accounted {e : Engine} (reachable : Engine.Reachable (fun _ _ => True) e)
    (reached : Reaches (step shards) (NoneStraddles shards) (on e) t) :
    t.FileTells e.log ∧ (t.writer.failed = false → t.Accounted shards e.log) := by
  apply reached.invariant (I := fun t => t.FileTells e.log ∧ (t.writer.failed = false → t.Accounted shards e.log))
  · have start : (on e).Accounted shards e.log ∧ (on e).FileTells e.log := on_accounted reachable
    exact ⟨start.2, fun _ => start.1⟩
  · rintro t a t' ⟨tells, accounted⟩ apart taken
    have took := Tenant.took taken
    cases failed : t'.writer.failed with
    | true => exact ⟨tells.stopped took failed, fun running => by cases running⟩
    | false =>
        have before := accounted (took.running failed)
        have harmless : a.Harmless := by
          cases took with
          | @flush n ok writer flushed => exact LogWriter.flush_running flushed failed
          | handle => exact apart.1
          | _ => trivial
        exact ⟨before.file_took tells took harmless apart, fun _ => before.took took harmless apart⟩

/-- A compaction from its beginning to its listing. -/
def listing : List Action := [.beginCompaction, .handle none, .enterWindow, .list [1], .allListed]

/-- The same from its look at the room to its end. -/
def merging : List Action := [.lookSnapshot, .snapshot, .submit, .handle none, .finishCompaction]

/-- A room is made in front of the compaction, and reaches the table behind its listing. -/
def making : List Action := [.create 2 none none 1 none, .sendTopology, .flush 1 true] ++ listing ++ [.finishTopology] ++ merging

/-- A room is deleted in front of the compaction, and leaves the table behind its copy. -/
def deleting : List Action := [.delete 1, .unlink, .clear, .sendTopology, .flush 1 true] ++ listing ++ merging ++ [.finishTopology]

def lost : Tenant := (Machine.run (step oneShard) making (on bareRoom)).getD (on bareRoom)

def returned : Tenant := (Machine.run (step oneShard) deleting (on bareRoom)).getD (on bareRoom)

theorem making_reached : Reaches (step oneShard) (fun _ _ => True) (on bareRoom) lost := by
  have possible : (Machine.run (step oneShard) making (on bareRoom)).isSome := by decide +kernel
  obtain ⟨t, ran⟩ := Option.isSome_iff_exists.mp possible
  rw [lost, ran]
  exact Machine.reaches_of_run (fun _ _ _ => trivial) ran

theorem deleting_reached : Reaches (step oneShard) (fun _ _ => True) (on bareRoom) returned := by
  have possible : (Machine.run (step oneShard) deleting (on bareRoom)).isSome := by decide +kernel
  obtain ⟨t, ran⟩ := Option.isSome_iff_exists.mp possible
  rw [returned, ran]
  exact Machine.reaches_of_run (fun _ _ _ => trivial) ran

/-- A room is made while a compaction waits to list. -/
def entering : List Action := [.enterWindow, .create 2 none none 1 none, .sendTopology, .flush 1 true]

end Tenant

end Deltat
