import Deltat.TenantSteps

/-! # What a compaction makes durable

Holds, bookings and commits reach memory in front of their flush, and a snapshot reads memory.
But their records are queued before they are applied, the writer works its queue off in order,
and after a failed flush it refuses every compaction.
-/

namespace Deltat

open Lib Machine

namespace Event

/-- The steps of a record are single changes. -/
theorem perResource_step {record change : Event} (step : change ∈ record.perResource) :
    change.perResource = [change] := by
  cases record with
  | holdsCommitted commits =>
      obtain ⟨c, _, isEvent⟩ := List.mem_flatMap.mp step
      simp only [HoldCommit.events, List.mem_cons, List.not_mem_nil, or_false] at isEvent
      rcases isEvent with rfl | rfl <;> rfl
  | _ =>
      cases List.mem_singleton.mp step
      rfl

theorem adds_routed {change : Event} {i : Interval} (adds : change.adds = some i) :
    ∃ r, change.resourceId? = some r := by
  cases change <;> first | exact ⟨_, rfl⟩ | cases adds

end Event

/-- Some of the records puts this interval on this resource. -/
def Puts (records : List Event) (r : Ulid) (i : Interval) : Prop :=
  ∃ record ∈ records, ∃ change ∈ record.perResource, change.resourceId? = some r ∧ change.adds = some i

theorem Puts.mono {records more : List Event} {r : Ulid} {i : Interval} (puts : Puts records r i)
    (subset : records ⊆ more) : Puts more r i := by
  obtain ⟨record, inside, change⟩ := puts
  exact ⟨record, subset inside, change⟩

/-- An engine opened on a log, where the resource table lists its ids in the given order. -/
def Engine.opened (clock maxHoldTtlMs : Ms) (events : List Event) (order : List Ulid) : Engine :=
  { Engine.start clock maxHoldTtlMs with store := .rebuilt events order, log := events }

namespace ResourceState

/-- After a change there is nothing but what was there and what it adds. -/
theorem mem_applySingle {rs : ResourceState} {change : Event} {i : Interval}
    (inside : i ∈ (rs.applySingle change).intervals) : change.adds = some i ∨ i ∈ rs.intervals := by
  rw [applySingle_eq, setFields_intervals, (put_perm change.adds).mem_iff, List.mem_append, Option.mem_toList] at inside
  refine inside.imp_right fun taken => ?_
  cases removed : change.removes with
  | none =>
      rw [removed] at taken
      exact taken
  | some x =>
      rw [removed] at taken
      exact List.mem_of_mem_eraseP taken

end ResourceState

namespace InMemoryStore

variable {s : InMemoryStore}

/-- What is on a resource comes from the records, and the table names each resource by its id. -/
def Sourced (records : List Event) (s : InMemoryStore) : Prop :=
  s.Named ∧ ∀ r rs, s.getResource r = some rs → ∀ i ∈ rs.intervals, Puts records r i

theorem Sourced.stepOn {records : List Event} {ev : Event} {r : Ulid} {entry : Option ResourceState}
    {rs : ResourceState} (before : ∀ rs, entry = some rs → ∀ i ∈ rs.intervals, Puts records r i)
    (after : ev.stepOn r entry = some rs) : ∀ i ∈ rs.intervals, Puts (records ++ [ev]) r i := by
  have kept : ∀ old, entry = some old → ∀ i ∈ old.intervals, Puts (records ++ [ev]) r i :=
    fun old found i inside => (before old found i inside).mono (List.subset_append_left _ _)
  have change : ∀ changes ⊆ ev.changesOn r, ∀ old : ResourceState, (∀ i ∈ old.intervals, Puts (records ++ [ev]) r i) →
      ∀ i ∈ (changes.foldl ResourceState.applySingle old).intervals, Puts (records ++ [ev]) r i := by
    intro changes
    induction changes with
    | nil => exact fun _ _ sourced => sourced
    | cons first rest ih =>
        intro own old sourced
        obtain ⟨isOwn, others⟩ := List.cons_subset.mp own
        apply ih others
        intro i inside
        rcases ResourceState.mem_applySingle inside with added | there
        · obtain ⟨member, routed⟩ := List.mem_filter.mp isOwn
          exact ⟨ev, List.mem_append_right _ (List.mem_singleton.mpr rfl), first, member, by simpa using routed, added⟩
        · exact sourced i there
  have mapped : ∀ found : entry.map ((ev.changesOn r).foldl ResourceState.applySingle) = some rs,
      ∀ i ∈ rs.intervals, Puts (records ++ [ev]) r i := by
    intro found
    obtain ⟨old, present, rfl⟩ := Option.map_eq_some_iff.mp found
    exact change _ (List.Subset.refl _) old (kept old present)
  cases ev with
  | resourceCreated id =>
      simp only [Event.stepOn] at after
      split at after
      · cases after
        intro i inside
        cases inside
      · exact kept rs after
  | resourceDeleted id =>
      simp only [Event.stepOn] at after
      split at after
      · cases after
      · exact kept rs after
  | resourceUpdated | ruleAdded | ruleUpdated | ruleRemoved | holdPlaced | holdReleased | bookingConfirmed
  | bookingCancelled | holdsCommitted => exact mapped after

/-- What replay builds comes from the log. -/
theorem replayed_sourced (events : List Event) : (replayed events).Sourced events := by
  refine ⟨replayed_named events, fun r rs found => ?_⟩
  rw [replayed_getResource] at found
  have fold : ∀ (later before : List Event) (entry : Option ResourceState),
      (∀ rs, entry = some rs → ∀ i ∈ rs.intervals, Puts before r i) →
      ∀ rs, later.foldl (fun entry ev => ev.stepOn r entry) entry = some rs →
        ∀ i ∈ rs.intervals, Puts (before ++ later) r i := by
    intro later
    induction later with
    | nil =>
        intro before entry sourced
        rw [List.append_nil]
        exact sourced
    | cons ev rest ih =>
        intro before entry sourced rs found
        have further := ih (before ++ [ev]) (ev.stepOn r entry) (fun _ => Sourced.stepOn sourced) rs found
        rwa [List.append_assoc, List.singleton_append] at further
  exact fold events [] none (fun _ absent => by cases absent) rs found

theorem Sourced.detachOrphan {records : List Event} (sourced : s.Sourced records) (id : Ulid) :
    (s.detachOrphan id).Sourced records := by
  obtain ⟨named, puts⟩ := sourced
  constructor
  · intro r rs found
    unfold InMemoryStore.detachOrphan at found
    split at found
    · exact named r rs found
    · next there present =>
        split at found
        · exact named r rs found
        · split at found
          · exact named r rs found
          · simp only [removeChild_getResource, detachParent_getResource] at found
            by_cases same : r = id
            · subst same
              simp only [getResource, AList.lookup_insert, Option.some.injEq] at found
              rw [← found]
              exact named r there present
            · simp only [getResource, AList.lookup_insert_ne same] at found
              exact named r rs found
  · intro r rs found i inside
    have intervals := detachOrphan_intervals (s := s) id r
    rw [found] at intervals
    obtain ⟨old, present, same⟩ := Option.map_eq_some_iff.mp intervals.symm
    exact puts r old present i (same ▸ inside)

theorem rebuilt_sourced (events : List Event) (order : List Ulid) : (rebuilt events order).Sourced events := by
  unfold rebuilt
  have start := replayed_sourced events
  generalize replayed events = s at start
  induction order generalizing s with
  | nil => exact start
  | cons id rest ih => exact ih _ (start.detachOrphan id)

end InMemoryStore

/-! ## The queue -/

namespace LogWriter

variable {w w' : LogWriter} {stored : List Event}

/-- As long as no flush fails, what was queued is what was flushed and what still waits, and a
    queued compaction carries only what was queued in front of it. -/
structure Ordered (stored : List Event) (w : LogWriter) : Prop where
  handed : w.failed = false → w.handed = w.flushed ++ w.queue.flatMap WalCommand.records
  compacts : w.failed = false → ∀ ahead events behind, w.queue = ahead ++ .compact events :: behind →
    ∀ change ∈ events.flatMap Event.perResource, ∀ i, change.adds = some i → ∃ r, change.resourceId? = some r ∧
      Puts (stored ++ (w.flushed ++ ahead.flatMap WalCommand.records)) r i
  recorded : ∀ window, w.recording = some window → window ⊆ w.flushed

theorem Ordered.push (ordered : w.Ordered stored) {command : WalCommand}
    (carries : ∀ events, command = .compact events → ∀ change ∈ events.flatMap Event.perResource, ∀ i,
      change.adds = some i → ∃ r, change.resourceId? = some r ∧ Puts (stored ++ w.handed) r i) :
    (w.push command).Ordered stored where
  handed running := by
    simp only [LogWriter.push, ordered.handed running, List.flatMap_append, List.flatMap_singleton, List.append_assoc]
  compacts running ahead events behind queue change inside i added := by
    rcases List.eq_nil_or_concat behind with rfl | ⟨front, last, rfl⟩
    · obtain ⟨rfl, rfl⟩ := List.append_singleton_inj.mp queue
      have carried := carries events rfl change inside i added
      rw [ordered.handed running] at carried
      exact carried
    · have split : w.queue = ahead ++ .compact events :: front := by
        rw [List.concat_eq_append, ← List.cons_append, ← List.append_assoc] at queue
        exact (List.append_singleton_inj.mp queue).1
      exact ordered.compacts running ahead events front split change inside i added
  recorded := ordered.recorded

/-- Working off the front of the queue keeps the order. -/
theorem Ordered.advance (ordered : w.Ordered stored) {n : Nat} (queue : w'.queue = w.queue.drop n)
    (handed : w'.handed = w.handed) (running : w'.failed = false → w.failed = false)
    (flushed : w'.failed = false → w'.flushed = w.flushed ++ (w.queue.take n).flatMap WalCommand.records)
    (recorded : ∀ window, w'.recording = some window → window ⊆ w'.flushed) : w'.Ordered stored where
  handed still := by
    rw [handed, flushed still, queue, ordered.handed (running still), List.append_assoc, ← List.flatMap_append,
      List.take_append_drop]
  compacts still ahead events behind split change inside i added := by
    have whole : w.queue = (w.queue.take n ++ ahead) ++ .compact events :: behind := by
      rw [List.append_assoc, ← split, queue, List.take_append_drop]
    have puts := ordered.compacts (running still) _ events behind whole change inside i added
    rwa [List.flatMap_append, ← List.append_assoc w.flushed, ← flushed still] at puts
  recorded := recorded

theorem Ordered.took (ordered : w.Ordered stored) (took : w.Took w') : w'.Ordered stored := by
  cases took with
  | flushed n =>
      refine ordered.advance rfl rfl id (fun _ => rfl) fun window recording => ?_
      obtain ⟨before, was, rfl⟩ := Option.map_eq_some_iff.mp recording
      exact List.append_subset.mpr ⟨List.subset_append_of_subset_left _ (ordered.recorded before was),
        List.subset_append_right _ _⟩
  | refused n =>
      exact ordered.advance (n := n) rfl rfl (fun running => by cases running) (fun running => by cases running)
        ordered.recorded
  | began head =>
      refine ordered.advance (n := 1) rfl rfl id (fun _ => ?_) fun window recording => ?_
      · simp [answer, head, WalCommand.records]
      · cases recording
        exact List.nil_subset _
  | stopped head | compacted head | swapped head | kept head =>
      refine ordered.advance (n := 1) rfl rfl id (fun _ => ?_) fun window recording => ?_
      · simp [answer, head, WalCommand.records]
      · cases recording

/-- A compaction that is answered Ok has written the snapshot and what was recorded. -/
theorem handle_compact {snapshot : List Event} {behind : List WalCommand} {fault : Option CompactFault}
    (head : w.queue = .compact snapshot :: behind) (handled : w.handle fault = some w')
    (answered : w'.outcomes .compaction = some true) :
    w.failed = false ∧ w' = { w.answer 1 true with
      file := Compaction.mergeRecorded snapshot (w.recording.getD []), attached := true, recording := none } := by
  have refused : (w.answer 1 false).outcomes .compaction = some false := by
    simp [answer, head, WalCommand.sender]
  simp only [handle, head] at handled
  split at handled
  · cases handled
    rw [refused] at answered
    cases answered
  · next running =>
      split at handled
      · cases handled
        exact ⟨by simpa using running, rfl⟩
      · split at handled <;> cases handled <;> rw [refused] at answered <;> cases answered

end LogWriter

/-! ## The tenant -/

namespace Tenant

variable {shards : Shards} {t t' : Tenant} {a : Action} {stored : List Event}

/-- Whatever is in memory, about to be, or copied from there comes from a record that was queued. -/
structure Sourced (stored : List Event) (t : Tenant) : Prop where
  routed : t.Routed
  queued : ∀ i, ∀ p ∈ (t.tasks i).pending, p.2 ∈ t.writer.handed.flatMap Event.perResource
  memory : ∀ h rs, t.memory.read h = some rs →
    rs.id = h.1 ∧ ∀ i ∈ rs.intervals, Puts (stored ++ t.writer.handed) rs.id i
  copies : ∀ snapshots found rest, t.compaction = .snapshotting snapshots found rest →
    ∀ rs ∈ snapshots, ∀ i ∈ rs.intervals, Puts (stored ++ t.writer.handed) rs.id i

theorem Took.handed (took : t.Took shards a t') : t.writer.handed ⊆ t'.writer.handed := by
  rcases took.writer with same | ⟨command, pushed⟩ | worked
  · rw [same]
    exact List.Subset.refl _
  · rw [pushed]
    exact List.subset_append_left _ _
  · generalize t'.writer = w at worked
    cases worked <;> exact List.Subset.refl _

theorem Sourced.took (sourced : t.Sourced stored) (took : t.Took shards a t') : t'.Sourced stored := by
  have further : ∀ {r i}, Puts (stored ++ t.writer.handed) r i → Puts (stored ++ t'.writer.handed) r i :=
    fun puts => puts.mono (List.append_subset.mpr ⟨List.subset_append_left _ _,
      List.subset_append_of_subset_right _ took.handed⟩)
  have wider : t.writer.handed.flatMap Event.perResource ⊆ t'.writer.handed.flatMap Event.perResource := by
    intro change inside
    obtain ⟨record, handed, isChange⟩ := List.mem_flatMap.mp inside
    exact List.mem_flatMap.mpr ⟨record, took.handed handed, isChange⟩
  refine ⟨sourced.routed.took took, fun j p inside => ?_, fun h rs found => ?_, fun snapshots at' rest phase => ?_⟩
  · rcases took.pending inside with before | ⟨request, held, records, _, sent, pushed⟩
    · exact wider (sourced.queued j p before)
    · rw [pushed, LogWriter.push, WalCommand.write_records, List.flatMap_append]
      exact List.mem_append_right _ (mem_pendingOn.mp sent).2.1
  · rcases took.read sourced.routed found with before | ⟨j, change, old, pending, before, rfl⟩ | ⟨_, _, _, _, rfl⟩
    · obtain ⟨named, puts⟩ := sourced.memory h rs before
      exact ⟨named, fun i inside => further (puts i inside)⟩
    · obtain ⟨named, puts⟩ := sourced.memory h old before
      rw [ResourceState.applySingle_id]
      refine ⟨named, fun i inside => ?_⟩
      rcases ResourceState.mem_applySingle inside with added | there
      · obtain ⟨record, handed, isChange⟩ := List.mem_flatMap.mp (sourced.queued j _ pending)
        exact further ⟨record, List.mem_append_right _ handed, change, isChange,
          by rw [named]; exact sourced.routed j _ pending, added⟩
      · exact further (puts i there)
    · exact ⟨rfl, fun i inside => by cases inside⟩
  · intro rs copied i inside
    cases took with
    | allListed =>
        cases phase
        cases copied
    | lookSnapshot was => cases phase; exact sourced.copies _ _ _ was rs copied i inside
    | snapshot was _ present =>
        cases phase
        rcases List.mem_append.mp copied with before | now
        · exact sourced.copies _ _ _ was rs before i inside
        · cases List.mem_singleton.mp now
          exact (sourced.memory _ rs present).2 i inside
    | enterWindow | list | submit | finishCompaction | beginCompaction => cases phase
    | _ => exact further (sourced.copies _ _ _ phase rs copied i inside)

theorem toEvent_adds (r : Ulid) (i : Interval) : (i.toEvent r).adds = some i ∧
    (i.toEvent r).resourceId? = some r ∧ (i.toEvent r).perResource = [i.toEvent r] := by
  obtain ⟨id, span, kind⟩ := i
  cases kind <;> exact ⟨rfl, rfl, rfl⟩

/-- What recreates a snapshot adds its intervals to its resource. -/
theorem snapshotEvents_adds {snapshots : List ResourceState} {change : Event} {i : Interval}
    (inside : change ∈ (Compaction.snapshotEvents snapshots).flatMap Event.perResource) (adds : change.adds = some i) :
    ∃ rs ∈ snapshots, i ∈ rs.intervals ∧ change.resourceId? = some rs.id := by
  obtain ⟨record, inside, isStep⟩ := List.mem_flatMap.mp inside
  obtain ⟨rs, sorted, inside⟩ := List.mem_flatMap.mp inside
  refine ⟨rs, (List.perm_insertionSort _ _).mem_iff.mp sorted, ?_⟩
  rcases List.mem_cons.mp inside with rfl | recreated
  · cases List.mem_singleton.mp isStep
    cases adds
  · obtain ⟨j, there, rfl⟩ := List.mem_map.mp recreated
    obtain ⟨addsJ, routed, single⟩ := toEvent_adds rs.id j
    rw [single] at isStep
    cases List.mem_singleton.mp isStep
    rw [addsJ] at adds
    cases adds
    exact ⟨there, routed⟩

theorem ordered_took (sourced : t.Sourced stored) (ordered : t.writer.Ordered stored) (took : t.Took shards a t') :
    t'.writer.Ordered stored := by
  have plain : ∀ command : WalCommand, (∀ events, command ≠ .compact events) →
      (t.writer.push command).Ordered stored :=
    fun command other => ordered.push fun events same => absurd same (other events)
  cases took with
  | send =>
      refine plain _ fun events => ?_
      unfold WalCommand.write
      split <;> exact fun same => by cases same
  | sendCreate | sendDelete | beginCompaction => exact plain _ fun events same => by cases same
  | submit phase =>
      refine ordered.push fun events same change inside i added => ?_
      cases same
      obtain ⟨rs, copied, there, routed⟩ := snapshotEvents_adds inside added
      exact ⟨rs.id, routed, sourced.copies _ _ _ phase rs copied i there⟩
  | flush _ took | handle _ took => exact ordered.took took
  | _ => exact ordered

/-- A tenant as it is opened on a log. -/
theorem opened_sourced (clock maxHoldTtlMs : Ms) (order : List Ulid) :
    (on (.opened clock maxHoldTtlMs stored order)).Sourced stored ∧
      (on (.opened clock maxHoldTtlMs stored order)).writer.Ordered stored := by
  refine ⟨⟨fun i p inside => ?_, fun i p inside => ?_, fun h rs found => ?_, fun _ _ _ phase => ?_⟩,
    fun _ => rfl, fun _ ahead events behind queue => ?_, fun _ recording => ?_⟩
  · cases inside
  · cases inside
  · obtain ⟨named, puts⟩ := InMemoryStore.rebuilt_sourced stored order
    have found : (if h.2 = 0 then (InMemoryStore.rebuilt stored order).getResource h.1 else none) = some rs := found
    split at found
    · have isNamed := named _ _ found
      exact ⟨isNamed, fun i inside => (isNamed ▸ puts _ _ found i inside).mono (List.subset_append_left _ _)⟩
    · cases found
  · cases phase
  · simp [on] at queue
  · cases recording

/-- In every run, what is in memory was queued, and the queue is worked off in order. -/
theorem reached_sourced {clock maxHoldTtlMs : Ms} {order : List Ulid}
    (reached : Reaches (step shards) (fun _ _ => True) (on (.opened clock maxHoldTtlMs stored order)) t) :
    t.Sourced stored ∧ t.writer.Ordered stored := by
  apply reached.invariant (I := fun t => t.Sourced stored ∧ t.writer.Ordered stored) (opened_sourced ..)
  rintro t a t' ⟨sourced, ordered⟩ _ taken
  exact ⟨sourced.took (took taken), ordered_took sourced ordered (took taken)⟩

/-- When a compaction is answered Ok, everything queued in front of it has been flushed, and every
    interval that the rewritten file puts on a resource was put there by a flushed record. -/
theorem compaction_writes_flushed {clock maxHoldTtlMs : Ms} {order : List Ulid}
    (reached : Reaches (step shards) (fun _ _ => True) (on (.opened clock maxHoldTtlMs stored order)) t)
    {snapshot : List Event} {behind : List WalCommand} (head : t.writer.queue = .compact snapshot :: behind)
    {fault : Option CompactFault} (taken : t.step shards (.handle fault) = some t')
    (answered : t'.writer.outcomes .compaction = some true) :
    t'.writer.handed = t'.writer.flushed ++ behind.flatMap WalCommand.records ∧
      ∀ change ∈ t'.writer.file.flatMap Event.perResource, ∀ i, change.adds = some i →
        ∃ r, change.resourceId? = some r ∧ Puts (stored ++ t'.writer.flushed) r i := by
  obtain ⟨_, ordered⟩ := reached_sourced reached
  obtain ⟨writer, handled, rfl⟩ := Option.map_eq_some_iff.mp taken
  obtain ⟨running, rfl⟩ := LogWriter.handle_compact head handled answered
  have inFront := ordered.compacts running [] snapshot behind head
  have whole := ordered.handed running
  rw [head] at whole
  refine ⟨whole, fun change isChange i added => ?_⟩
  obtain ⟨record, inside, isStep⟩ := List.mem_flatMap.mp isChange
  rcases List.mem_append.mp inside with copied | kept
  · obtain ⟨r, routed, puts⟩ := inFront change (List.mem_flatMap.mpr ⟨record, copied, isStep⟩) i added
    rw [List.flatMap_nil, List.append_nil] at puts
    exact ⟨r, routed, puts⟩
  · obtain ⟨source, recorded, fromSource⟩ := List.mem_flatMap.mp (List.mem_filter.mp kept).1
    rw [Event.perResource_step fromSource] at isStep
    cases List.mem_singleton.mp isStep
    obtain ⟨r, routed⟩ := Event.adds_routed added
    have flushed : source ∈ t.writer.flushed := by
      cases window : t.writer.recording with
      | none =>
          rw [window] at recorded
          cases recorded
      | some records =>
          rw [window] at recorded
          exact ordered.recorded records window recorded
    exact ⟨r, routed, source, List.mem_append_right _ flushed, _, fromSource, routed, added⟩

/-- A tenant opened on a log of one resource. -/
def oneRoom : Tenant := on (.opened 0 1000 [.resourceCreated 1 none none 1 none] [1])

/-- A booking is applied while a compaction runs, and copied before it is flushed. -/
def bookedAhead : List Action :=
  [.beginCompaction, .handle none, .enterWindow, .list [1], .allListed, .lookSnapshot,
    .start 0 (.confirmBooking 2 1 ⟨⟨10, 20⟩, slot_valid⟩ none), .lookUp 0, .lock 0, .allLocked 0, .claim 0,
    .check 0 0 noRules, .send 0, .apply 0, .release 0, .snapshot, .submit, .flush 1 true]

def copiedAhead : Tenant := (Machine.run (step oneShard) bookedAhead oneRoom).getD oneRoom

theorem copiedAhead_ran : Machine.run (step oneShard) bookedAhead oneRoom = some copiedAhead := by
  have possible : (Machine.run (step oneShard) bookedAhead oneRoom).isSome := by decide +kernel
  obtain ⟨t, ran⟩ := Option.isSome_iff_exists.mp possible
  rw [copiedAhead, ran]
  rfl

theorem copiedAhead_queue : copiedAhead.writer.queue =
    .compact [.resourceCreated 1 none none 1 none, .bookingConfirmed 2 1 ⟨10, 20⟩ none] :: [] := by decide +kernel

theorem copiedAhead_durable : ∃ t', copiedAhead.step oneShard (.handle none) = some t' ∧
    t'.writer.handed = t'.writer.flushed ++ [].flatMap WalCommand.records ∧
      ∀ change ∈ t'.writer.file.flatMap Event.perResource, ∀ i, change.adds = some i →
        ∃ r, change.resourceId? = some r ∧
          Puts ([.resourceCreated 1 none none 1 none] ++ t'.writer.flushed) r i := by
  have possible : ((copiedAhead.step oneShard (.handle none)).map (·.writer.outcomes .compaction)) = some (some true) := by
    decide +kernel
  obtain ⟨t', taken, answered⟩ := Option.map_eq_some_iff.mp possible
  exact ⟨t', taken, compaction_writes_flushed (Machine.reaches_of_run (fun _ _ _ => trivial) copiedAhead_ran)
    copiedAhead_queue taken answered⟩

end Tenant

end Deltat
