import Deltat.CompactionDurability
import Deltat.Lib.Keyed
import Deltat.LogOwners

/-! # The entity index over restarts

Live, a deleted resource's entities are unmapped with it, and an id in use is refused. Replay
does neither: the records have to say it. After a restart on a log that does, the index is exact
again, whatever collection dropped and compaction rewrote before.
-/

namespace Deltat

open Lib Outcome History

/-- A log whose records add only ids that it leaves with nobody, and delete only resources that
    it leaves without entities. -/
def Clean (events : List Event) : Prop :=
  Throughout (fun before ev => ev.FreshAfter before ∧ ev.LeavesNobody before) events

theorem Clean.fresh {events : List Event} (clean : Clean events) : FreshIds events := clean.mono fun _ _ both => both.1

/-! ## The index that replay builds -/

namespace InMemoryStore

variable {s : InMemoryStore} {ev : Event} {r x : Ulid}

theorem foldl_indexSingle_owner {changes : List Event} (routed : ∀ change ∈ changes, ∃ r, change.resourceId? = some r)
    (x : Ulid) : ∀ s : InMemoryStore, (changes.foldl indexSingle s).getResourceForEntity x =
      changes.foldl (Event.changesOwner x) (s.getResourceForEntity x) := by
  induction changes with
  | nil => exact fun _ => rfl
  | cons change rest ih =>
      intro s
      obtain ⟨r, onResource⟩ := routed change List.mem_cons_self
      have later := ih (fun b inRest => routed b (List.mem_cons_of_mem _ inRest)) (s.indexSingle change)
      rw [indexSingle_getResourceForEntity s onResource, ← onResource] at later
      exact later

theorem replayOn_owner (named : s.Named) (present : (s.getResource r).isSome)
    (routed : (∃ commits, ev = .holdsCommitted commits) ∨ ev.resourceId? = some r) (x : Ulid) :
    (s.replayOn r ev).getResourceForEntity x = (ev.changesOn r).foldl (Event.changesOwner x) (s.getResourceForEntity x) := by
  obtain ⟨rs, found⟩ := Option.isSome_iff_exists.mp present
  have own : ∀ change ∈ ev.changesOn r, ∃ r, change.resourceId? = some r :=
    fun change step => ⟨r, by simpa using (List.mem_filter.mp step).2⟩
  rw [← foldl_indexSingle_owner own x s, ← Event.ownPart_eq_changesOn routed]
  simp only [replayOn, found, applyEvent, named r rs found]
  rfl

/-- A commit handed to its resources changes the index as its steps do, resource by resource. -/
theorem foldl_replayOn_owner (commits : List HoldCommit) (rids : List Ulid) (x : Ulid) :
    ∀ {s : InMemoryStore}, s.Named → (∀ r ∈ rids, (s.getResource r).isSome) →
      (rids.foldl (·.replayOn · (.holdsCommitted commits)) s).getResourceForEntity x =
        (Engine.regroup rids (Event.holdsCommitted commits).perResource).foldl (Event.changesOwner x)
          (s.getResourceForEntity x) := by
  induction rids with
  | nil => exact fun _ _ => rfl
  | cons r rest ih =>
      intro s named present
      have shape := replayOn_shape (s := s) r (.holdsCommitted commits)
      have still : ∀ q ∈ rest, ((s.replayOn r (.holdsCommitted commits)).getResource q).isSome := by
        intro q inRest
        have same := congrArg Option.isSome (shape q)
        rw [Option.isSome_map, Option.isSome_map] at same
        exact same.trans (present q (List.mem_cons_of_mem _ inRest))
      have later := ih (named.of_shape shape) still
      rw [replayOn_owner named (present r List.mem_cons_self) (.inl ⟨commits, rfl⟩)] at later
      rw [List.foldl_cons, later, Engine.regroup, Engine.regroup, List.flatMap_cons, List.foldl_append]
      rfl

theorem regroup_perm {locked : List Ulid} (nodup : locked.Nodup) {changes : List Event}
    (routed : ∀ ev ∈ changes, ∃ r ∈ locked, ev.resourceId? = some r) : (Engine.regroup locked changes).Perm changes := by
  apply Keyed.perm_of_withKey Event.resourceId?
  intro key
  cases key with
  | some r => exact .of_eq (Engine.regroup_filter nodup routed r)
  | none =>
      have nothing : ∀ xs : List Event, (∀ ev ∈ xs, ∃ r, ev.resourceId? = some r) →
          Keyed.withKey Event.resourceId? none xs = [] := by
        intro xs known
        refine List.filter_eq_nil_iff.mpr fun ev inside => ?_
        obtain ⟨r, onResource⟩ := known ev inside
        simp [onResource]
      rw [nothing changes fun ev inside => (routed ev inside).imp fun _ both => both.2, nothing]
      intro ev inside
      obtain ⟨_, r, _, onResource⟩ := Engine.mem_regroup inside
      exact ⟨r, onResource⟩

/-- What the loop does to the index with a change of resources that exist. -/
theorem replayEvent_owner (named : s.Named) (change : ev.isChange)
    (present : ∀ change ∈ ev.perResource, ∃ r, change.resourceId? = some r ∧ (s.getResource r).isSome)
    (apart : ev.perResource.Pairwise Event.Independent) (x : Ulid) :
    (s.replayEvent ev).getResourceForEntity x =
      ev.perResource.foldl (Event.changesOwner x) (s.getResourceForEntity x) := by
  have single : ∀ {r : Ulid}, ev.resourceId? = some r → ev.perResource = [ev] → (s.replayOn r ev).getResourceForEntity x =
      ev.perResource.foldl (Event.changesOwner x) (s.getResourceForEntity x) := by
    intro r routed alone
    obtain ⟨q, onResource, there⟩ := present ev (by rw [alone]; exact List.mem_cons_self)
    obtain rfl := Option.some.inj (routed.symm.trans onResource)
    rw [replayOn_owner named there (.inr routed), Event.changesOn, alone, List.filter_singleton, routed]
    simp
  cases ev with
  | holdsCommitted commits =>
      have routed : ∀ c ∈ (Event.holdsCommitted commits).perResource,
          ∃ r ∈ Engine.ascending (commits.map (·.resourceId)), c.resourceId? = some r := by
        intro c step
        obtain ⟨entry, member, isEvent⟩ := List.mem_flatMap.mp step
        refine ⟨entry.resourceId, Engine.mem_ascending.mpr (List.mem_map_of_mem member), ?_⟩
        simp only [HoldCommit.events, List.mem_cons, List.not_mem_nil, or_false] at isEvent
        rcases isEvent with rfl | rfl <;> rfl
      have all : ∀ r ∈ Engine.ascending (commits.map (·.resourceId)), (s.getResource r).isSome := by
        intro r locked
        obtain ⟨entry, member, rfl⟩ := List.mem_map.mp (Engine.mem_ascending.mp locked)
        have step : Event.holdReleased entry.holdId entry.resourceId ∈ (Event.holdsCommitted commits).perResource :=
          List.mem_flatMap.mpr ⟨entry, member, List.mem_cons_self⟩
        obtain ⟨q, onResource, there⟩ := present _ step
        obtain rfl := Option.some.inj onResource
        exact there
      have perm := regroup_perm (Engine.ascending_nodup _) routed
      rw [foldl_changesOwner_perm perm.symm apart]
      exact foldl_replayOn_owner commits _ x named all
  | resourceUpdated | ruleAdded | ruleUpdated | ruleRemoved | holdPlaced | holdReleased | bookingConfirmed
  | bookingCancelled => exact single rfl rfl
  | resourceCreated | resourceDeleted => cases change

/-- A clean log replays to an index that maps an entity to where the log leaves it. -/
theorem replayed_owner {events : List Event} (composed : Composed events) (clean : Clean events) (x : Ulid) :
    (replayed events).getResourceForEntity x = lastOwner events x := by
  induction events using List.reverseRecOn with
  | nil => rfl
  | append_singleton events ev ih =>
      obtain ⟨composedBefore, stands⟩ := throughout_concat.mp composed
      obtain ⟨cleanBefore, fresh, leaves⟩ := throughout_concat.mp clean
      have before := ih composedBefore cleanBefore
      rw [replayed_append, List.foldl_cons, List.foldl_nil, lastOwner_concat, ← before]
      cases stands with
      | created => exact create_getResourceForEntity ..
      | deleted id =>
          have nobody := leaves id rfl x
          rw [← before] at nobody
          rw [Event.ownerAfter, if_neg nobody]
          unfold replayEvent
          simp only [removeResource_getResourceForEntity]
          split
          · exact removeChild_getResourceForEntity ..
          · rfl
      | changed change located apart =>
          rw [Event.ownerAfter_change change]
          refine replayEvent_owner (replayed_named events) change (fun c step => ?_) apart x
          obtain ⟨r, at'⟩ := located c step
          obtain ⟨rs, there, _⟩ := at'.carries
          exact ⟨r, at'.routed, by rw [there]; rfl⟩

/-- A clean log replays to a table with an exact index. -/
theorem replayed_indexed {events : List Event} (composed : Composed events) (clean : Clean events) :
    (replayed events).Indexed := by
  obtain ⟨s, indexed, table, owners⟩ := accounts_of_fresh composed clean.fresh
  refine ⟨replayed_named events, fun r rs present => ?_, fun x r => ?_⟩
  · exact indexed.wellFormed r rs ((table r).trans present)
  · rw [replayed_owner composed clean, ← owners, ← table]
    exact indexed.entities x r

theorem Linked.consistent (linked : s.Linked) (indexed : s.Indexed)
    (parents : ∀ c rs p, s.getResource c = some rs → rs.parentId = some p → (s.getResource p).isSome) : s.Consistent where
  ids := indexed.ids
  wellFormed := indexed.wellFormed
  entities := indexed.entities
  parents := linked.parents
  parentExists := parents
  children p c := by rw [linked.children, linked.parents, Option.bind_eq_some_iff]
  childrenNodup := linked.childrenNodup

end InMemoryStore

/-! ## What the log says beyond memory -/

namespace ResourceState

variable {rs live : ResourceState} {change : Event}

/-- A resource as the log has it, against the live one: it may carry intervals more. -/
structure Keeps (rs live : ResourceState) : Prop where
  fields : rs = { live with intervals := rs.intervals }
  intervals : live.intervals ⊆ rs.intervals

theorem Keeps.refl (rs : ResourceState) : rs.Keeps rs := ⟨rfl, List.Subset.refl _⟩

theorem Restores.keeps (same : rs.Restores live) : rs.Keeps live := by
  obtain ⟨id, parentId, name, capacity, bufferAfter, perm⟩ := same
  refine ⟨?_, perm.symm.subset⟩
  cases rs
  cases live
  simp_all

/-- What a change adds is there after it, and what it does not remove still is. -/
theorem mem_applySingle_of {i : Interval}
    (stays : change.adds = some i ∨ i ∈ rs.intervals ∧ change.removes ≠ some i.id) :
    i ∈ (rs.applySingle change).intervals := by
  rw [applySingle_eq, setFields_intervals, (put_perm change.adds).mem_iff, List.mem_append, Option.mem_toList]
  refine stays.imp_right fun ⟨inside, kept⟩ => ?_
  cases removed : change.removes with
  | none => exact inside
  | some x =>
      have apart : i.id ≠ x := fun same => kept (by rw [removed, same])
      exact (List.mem_eraseP_of_neg (by simpa using apart)).mpr inside

theorem mem_ids_applySingle {x : Ulid} (inside : x ∈ rs.intervals.map (·.id)) (kept : change.removes ≠ some x) :
    x ∈ (rs.applySingle change).intervals.map (·.id) := by
  obtain ⟨i, member, rfl⟩ := List.mem_map.mp inside
  exact List.mem_map_of_mem (mem_applySingle_of (.inr ⟨member, kept⟩))

theorem mem_ids_foldl {x : Ulid} {changes : List Event} (kept : ∀ change ∈ changes, change.removes ≠ some x) :
    ∀ {rs : ResourceState}, x ∈ rs.intervals.map (·.id) →
      x ∈ (changes.foldl applySingle rs).intervals.map (·.id) := by
  induction changes with
  | nil => exact fun inside => inside
  | cons change rest ih =>
      intro rs inside
      exact ih (fun b inRest => kept b (List.mem_cons_of_mem _ inRest))
        (mem_ids_applySingle inside (kept change List.mem_cons_self))

theorem Keeps.applySingle (keeps : rs.Keeps live) (nodup : (live.intervals.map (·.id)).Nodup) (change : Event) :
    (rs.applySingle change).Keeps (live.applySingle change) := by
  obtain ⟨fields, intervals⟩ := keeps
  constructor
  · have step : ∀ l : List Interval, ({ live with intervals := l } : ResourceState).applySingle change =
        { live.applySingle change with
          intervals := (({ live with intervals := l } : ResourceState).applySingle change).intervals } := by
      intro l
      cases change <;> rfl
    have own := step rs.intervals
    rwa [← fields] at own
  · intro i inside
    apply mem_applySingle_of
    rcases List.mem_append.mp ((applySingle_perm nodup change).mem_iff.mp inside) with added | stays
    · exact .inl (Option.mem_toList.mp added)
    · obtain ⟨there, kept⟩ := List.mem_filter.mp stays
      exact .inr ⟨intervals there, Ne.symm (by simpa using kept)⟩

theorem Keeps.collected (keeps : rs.Keeps live) (now cutoff : Ms) : rs.Keeps (live.collected now cutoff) :=
  ⟨keeps.fields, fun _ inside => keeps.intervals (List.mem_filter.mp inside).1⟩

end ResourceState

namespace InMemoryStore

variable {events before : List Event}

/-- The table after change records. -/
theorem replayed_changes (all : ∀ ev ∈ before, ev.isChange) (r : Ulid) :
    (replayed (events ++ before)).getResource r =
      ((replayed events).getResource r).map ((Engine.own before r).foldl ResourceState.applySingle) := by
  rw [replayed_append, foldl_replayEvent_getResource r before (replayed_named events), Event.foldl_stepOn r all]
  rfl

end InMemoryStore

namespace Engine

variable {e e' : Engine}

/-- The log against memory: its records go with each other, its replay has the live hierarchy, and
    every resource there keeps the live intervals. -/
structure Traced (e : Engine) : Prop where
  composed : Composed e.log
  linked : (InMemoryStore.replayed e.log).Linked
  retains : ∀ r, Option.Rel ResourceState.Keeps ((InMemoryStore.replayed e.log).getResource r) (e.store.getResource r)

theorem start_traced (clock ttl : Ms) : (start clock ttl).Traced :=
  ⟨.nil, InMemoryStore.empty_linked, fun _ => .none⟩

/-- A step of an admitted write goes with the table of the log and of the records before its own. -/
theorem Traced.located (h : e.Healthy) (traced : e.Traced) {before after : List Event} {ev change : Event}
    (admits : e.Admits (before ++ ev :: after)) (changes : ∀ b ∈ before ++ ev :: after, b.isChange)
    (step : change ∈ ev.perResource) :
    ∃ r, change.Located (.replayed (e.log ++ before)) r := by
  have all := admits.allApply h changes
  rw [List.flatMap_append, List.flatMap_cons] at all
  obtain ⟨r, applies⟩ := all.applies change (List.mem_append_right _ (List.mem_append_left _ step))
  obtain ⟨live, present⟩ := Option.isSome_iff_exists.mp applies.present
  have related := traced.retains r
  rw [present] at related
  obtain ⟨rs, kept, keeps⟩ := rel_some related
  have earlier : ∀ b ∈ before, b.isChange := fun b inside => changes b (List.mem_append_left _ inside)
  refine ⟨r, applies.routed, ⟨(own before r).foldl ResourceState.applySingle rs, ?_, fun x removed => ?_⟩,
    applies.admitted, applies.fields⟩
  · rw [InMemoryStore.replayed_changes earlier, kept, Option.map_some]
  · obtain ⟨other, found, inside⟩ := (h.consistent.entities x r).mp (applies.removes x removed)
    obtain rfl := Option.some.inj (found.symm.trans present)
    refine ResourceState.mem_ids_foldl (fun b own takes => ?_) (List.map_subset _ keeps.intervals inside)
    -- Another record of the write would be about the same entity.
    have apart := (List.pairwise_append.mp all.apart).2.2 b (List.mem_filter.mp own).1 change (List.mem_append_left _ step)
    exact apart x (Event.mem_touches.mpr (.inl takes)) (Event.mem_touches.mpr (.inl removed))

theorem Traced.wrote (h : e.Healthy) (traced : e.Traced) {records : List Event} (admits : e.Admits records)
    (wrote : e.Wrote e' records) : e'.Traced := by
  have absent : ∀ r, e.store.getResource r = none → (InMemoryStore.replayed e.log).getResource r = none := by
    intro r gone
    have related := traced.retains r
    rw [gone] at related
    exact rel_none related
  constructor
  case composed =>
    rw [wrote.log]
    refine throughout_append.mpr ⟨traced.composed, ?_⟩
    rcases admits.kinds with ⟨id, parentId, name, capacity, bufferAfter, rfl, passed⟩ | ⟨id, rs, rfl, _⟩ | changes
    · obtain ⟨wf, notYet, _⟩ := checkCreate_ok passed
      rw [throughout_singleton, List.append_nil]
      exact .created (absent id notYet) wf
    · rw [throughout_singleton]
      exact .deleted id
    · rintro before ev after rfl
      have all := (admits.allApply h changes).apart
      rw [List.flatMap_append, List.flatMap_cons] at all
      refine .changed (changes ev (by simp)) (fun change step => traced.located h admits changes step) ?_
      exact (List.pairwise_append.mp (List.pairwise_append.mp all).2.1).1
  case linked =>
    rw [wrote.log, InMemoryStore.replayed_append]
    exact admits.linked traced.linked absent
  case retains =>
    intro r
    rw [wrote.log, InMemoryStore.replayed_append,
      InMemoryStore.foldl_replayEvent_getResource r records (InMemoryStore.replayed_named e.log)]
    exact wrote.related (fun both wf _ => both.applySingle wf.idsNodup _) ResourceState.Keeps.refl h admits traced.retains r

end Engine

/-! ## A compacted log -/

namespace Compaction

/-- The intervals of a snapshot go with the table that has its resource. -/
theorem toEvent_stands {events before : List Event} {snap : ResourceState} {i : Interval} (wf : snap.WellFormed)
    (inside : i ∈ snap.intervals) (changes : ∀ b ∈ before, b.isChange)
    (present : ((InMemoryStore.replayed events).getResource snap.id).isSome) :
    (i.toEvent snap.id).Stands (.replayed (events ++ before)) := by
  have routed := toEvent_routed snap.id i
  have alone := Event.perResource_single routed
  have nothing : ∀ x, (i.toEvent snap.id).removes ≠ some x := by
    obtain ⟨id, span, kind⟩ := i
    cases kind <;> exact fun x removed => by cases removed
  refine .changed (toEvent_change snap.id i) (fun change step => ?_) (by rw [alone]; exact List.pairwise_singleton _ _)
  rw [alone, List.mem_singleton] at step
  subst step
  obtain ⟨rs, there⟩ := Option.isSome_iff_exists.mp present
  refine ⟨snap.id, routed, ⟨(Engine.own before snap.id).foldl ResourceState.applySingle rs, ?_, ?_⟩, ?_, ?_⟩
  · rw [InMemoryStore.replayed_changes changes, there, Option.map_some]
  · exact fun x removed => absurd removed (nothing x)
  · intro j added
    have own : (i.toEvent snap.id).adds = some i := by
      obtain ⟨id, span, kind⟩ := i
      cases kind <;> rfl
    obtain rfl := Option.some.inj (own.symm.trans added)
    exact wf.admitted i inside
  · intro rs wf
    obtain ⟨id, span, kind⟩ := i
    cases kind <;> exact wf

theorem resourceEvents_stand {events : List Event} {snap : ResourceState} (wf : snap.WellFormed)
    (absent : (InMemoryStore.replayed events).getResource snap.id = none) :
    Throughout (fun before ev => ev.Stands (.replayed (events ++ before))) (resourceEvents snap) := by
  rw [resourceEvents, throughout_cons]
  constructor
  · rw [List.append_nil]
    exact .created absent (ResourceState.new_wellFormed (Conflict.validateCapacity_ok.mpr wf.capacity) wf.bufferAfter wf.name)
  · intro before ev after same
    obtain ⟨first, others, listed, rfl, later⟩ := List.map_eq_append_iff.mp same
    obtain ⟨i, rest, rfl, rfl, _⟩ := List.map_eq_cons_iff.mp later
    have created := InMemoryStore.replayed_concat events
      (.resourceCreated snap.id snap.parentId snap.name snap.capacity snap.bufferAfter) snap.id
    simp only [Event.stepOn, ↓reduceIte] at created
    have inside : i ∈ snap.intervals := by rw [listed]; simp
    have changes : ∀ b ∈ first.map (·.toEvent snap.id), b.isChange :=
      List.forall_mem_map.mpr fun i _ => toEvent_change snap.id i
    have stands := toEvent_stands wf inside changes (by rw [created]; rfl)
    rwa [List.append_assoc, List.singleton_append] at stands

/-- The records of snapshots of different resources go with each other. -/
theorem snapshotEvents_composed {snaps : List ResourceState} (nodup : (snaps.map (·.id)).Nodup)
    (wf : ∀ snap ∈ snaps, snap.WellFormed) : Composed (snapshotEvents snaps) := by
  obtain ⟨sorted, perm, events⟩ : ∃ sorted : List ResourceState, sorted.Perm snaps ∧
      snapshotEvents snaps = sorted.flatMap resourceEvents := ⟨_, List.perm_insertionSort _ _, rfl⟩
  have fold : ∀ (rest : List ResourceState) (events : List Event), (rest.map (·.id)).Nodup →
      (∀ snap ∈ rest, snap.WellFormed) → (∀ snap ∈ rest, (InMemoryStore.replayed events).getResource snap.id = none) →
      Throughout (fun before ev => ev.Stands (.replayed (events ++ before))) (rest.flatMap resourceEvents) := by
    intro rest
    induction rest with
    | nil => exact fun _ _ _ _ => .nil
    | cons snap rest ih =>
        intro events nodup wf absent
        rw [List.map_cons, List.nodup_cons] at nodup
        obtain ⟨first, nodup⟩ := nodup
        refine throughout_append.mpr ⟨resourceEvents_stand (wf snap List.mem_cons_self) (absent snap List.mem_cons_self), ?_⟩
        have later := ih (events ++ resourceEvents snap) nodup (fun other inRest => wf other (List.mem_cons_of_mem _ inRest))
          fun other inRest => by
            have apart : snap.id ≠ other.id := fun same => first (same ▸ List.mem_map_of_mem inRest)
            rw [InMemoryStore.replayed_append,
              InMemoryStore.foldl_replayEvent_getResource _ _ (InMemoryStore.replayed_named events), foldl_resourceEvents,
              if_neg apart]
            exact absent other (List.mem_cons_of_mem _ inRest)
        exact later.mono fun before ev stands => by rwa [List.append_assoc] at stands
  rw [events]
  exact fold sorted [] ((perm.map (·.id)).nodup_iff.mpr nodup) (fun snap inside => wf snap (perm.mem_iff.mp inside))
    fun _ _ => rfl

end Compaction

/-! ## Runs with restarts -/

/-- One episode in the life of a tenant: a step of its engine, or another start on its log. -/
inductive Episode where
  | move (m : Move)
  | restart (clock maxHoldTtlMs : Ms) (order : List Ulid)

namespace Engine

variable {e : Engine}

/-- The engine after an episode. -/
def after (e : Engine) : Episode → Engine
  | .move m => e.next m
  | .restart clock maxHoldTtlMs order => .opened clock maxHoldTtlMs e.log order

/-- What the real system can go through here: the sweep for orphans lists the resources of the replay. -/
def Feasible (e : Engine) : Episode → Prop
  | .move m => e.Possible m
  | .restart _ _ order => order.Perm (InMemoryStore.replayed e.log).resourceIds

/-- Whether a restart, if the episode is one, finds a clean log. -/
def RestartsClean (e : Engine) : Episode → Prop
  | .move _ => True
  | .restart .. => Clean e.log

/-- The engines that runs with restarts reach when every episode satisfies `allowed`. -/
inductive Lived (allowed : Engine → Episode → Prop) : Engine → Prop where
  | start (clock maxHoldTtlMs : Ms) : Lived allowed (Engine.start clock maxHoldTtlMs)
  | step {e : Engine} (episode : Episode) : Lived allowed e → e.Feasible episode → allowed e episode →
      Lived allowed (e.after episode)

theorem Traced.next (h : e.Healthy) (traced : e.Traced) {m : Move} (possible : e.Possible m) : (e.next m).Traced := by
  cases m with
  | tick ms => exact ⟨traced.composed, traced.linked, traced.retains⟩
  | op o =>
      exact next_op_invariant h traced fun _ _ _ healthy before _ admits wrote => before.wrote healthy admits wrote
  | gc now retentionMs =>
      refine ⟨traced.composed, traced.linked, fun r => ?_⟩
      change Option.Rel _ ((InMemoryStore.replayed e.log).getResource r) ((e.gcPastIntervals now retentionMs).store.getResource r)
      rw [gc_getResource h]
      have related := traced.retains r
      cases present : e.store.getResource r with
      | none =>
          rw [present] at related
          rw [rel_none related]
          exact .none
      | some live =>
          rw [present] at related
          obtain ⟨rs, there, keeps⟩ := rel_some related
          rw [there]
          exact .some (keeps.collected _ _)
  | compact order =>
      change (e.compactWal order).Traced
      have restores := compactWal_recoverable h possible
      obtain ⟨nodup, table⟩ := snapshots_of_table (named_of_healthy h) possible
      refine ⟨?_, restores.linked, fun r => ?_⟩
      · rw [compactWal_eq h.running]
        refine Compaction.snapshotEvents_composed nodup fun snap inside => ?_
        exact h.consistent.wellFormed snap.id snap ((table snap.id snap).mpr ⟨inside, rfl⟩)
      · have related := restores.table r
        cases present : (e.compactWal order).store.getResource r with
        | none =>
            rw [present] at related
            rw [rel_none related]
            exact .none
        | some live =>
            rw [present] at related
            obtain ⟨rs, there, same⟩ := rel_some related
            rw [there]
            exact .some same.keeps

/-- Every parent in the replay of the log exists there. -/
theorem Traced.parentExists (h : e.Healthy) (traced : e.Traced) (c : Ulid) (rs : ResourceState) (p : Ulid)
    (present : (InMemoryStore.replayed e.log).getResource c = some rs) (under : rs.parentId = some p) :
    ((InMemoryStore.replayed e.log).getResource p).isSome := by
  have related := traced.retains c
  rw [present] at related
  cases found : e.store.getResource c with
  | none =>
      rw [found] at related
      cases rel_none related
  | some live =>
      rw [found] at related
      obtain ⟨_, same, keeps⟩ := rel_some related
      obtain rfl := Option.some.inj same
      rw [keeps.fields] at under
      obtain ⟨parent, inTable⟩ := Option.isSome_iff_exists.mp (h.consistent.parentExists c live p found under)
      have above := traced.retains p
      rw [inTable] at above
      obtain ⟨_, there, _⟩ := rel_some above
      rw [there]
      rfl

/-- On a log that an engine wrote the sweep for orphans finds nothing. -/
theorem Traced.rebuilt (h : e.Healthy) (traced : e.Traced) (order : List Ulid) :
    InMemoryStore.rebuilt e.log order = InMemoryStore.replayed e.log :=
  InMemoryStore.foldl_detachOrphan (traced.parentExists h) order

theorem Traced.opened (h : e.Healthy) (traced : e.Traced) (clean : Clean e.log) (clock ttl : Ms) (order : List Ulid) :
    (Engine.opened clock ttl e.log order).Healthy ∧ (Engine.opened clock ttl e.log order).Traced := by
  have store : (Engine.opened clock ttl e.log order).store = InMemoryStore.replayed e.log := traced.rebuilt h order
  have indexed := InMemoryStore.replayed_indexed traced.composed clean
  refine ⟨⟨rfl, rfl, ?_⟩, traced.composed, traced.linked, fun r => ?_⟩
  · rw [store]
    exact traced.linked.consistent indexed (traced.parentExists h)
  · rw [store]
    change Option.Rel _ ((InMemoryStore.replayed e.log).getResource r) _
    cases (InMemoryStore.replayed e.log).getResource r with
    | none => exact .none
    | some rs => exact .some (.refl rs)

theorem Lived.traced (lived : Lived RestartsClean e) : e.Healthy ∧ e.Traced := by
  induction lived with
  | start clock ttl => exact ⟨start_healthy clock ttl, start_traced clock ttl⟩
  | step episode _ possible allowed ih =>
      cases episode with
      | move m => exact ⟨next_healthy ih.1 m, ih.2.next ih.1 possible⟩
      | restart clock ttl order => exact ih.2.opened ih.1 allowed clock ttl order

/-- The entity index is exact: it maps an id to a resource just when the resource exists and has
    an interval with that id. -/
theorem entity_index_exact (e : Engine) (lived : Lived RestartsClean e) (x r : Ulid) :
    e.store.getResourceForEntity x = some r ↔
      ∃ rs, e.store.getResource r = some rs ∧ ∃ i ∈ rs.intervals, i.id = x := by
  have exact := lived.traced.1.consistent.entities x r
  simpa only [List.mem_map] using exact

/-- The booking is collected, and the restart brings it back. -/
def broughtBack : Engine := (bookedOnce.next (.gc 1000 0)).after (.restart 0 1000 [1])

theorem bookedOnce_clean : Clean bookedOnce.log := by
  refine throughout_cons.mpr ⟨⟨?_, ?_⟩, throughout_singleton.mpr ⟨?_, ?_⟩⟩
  · rintro change step i added
    rw [List.mem_singleton.mp step] at added
    cases added
  · rintro id ⟨⟩
  · rintro change step i added
    rw [List.mem_singleton.mp step] at added
    cases added
    exact .inr rfl
  · rintro id ⟨⟩

theorem bookedOnce_lived : Lived RestartsClean bookedOnce :=
  .step (.move (.op _)) (.step (.move (.op _)) (.start 0 1000) trivial trivial) trivial trivial

theorem broughtBack_index_exact : broughtBack.store.getResourceForEntity 2 = some 1 ↔
    ∃ rs, broughtBack.store.getResource 1 = some rs ∧ ∃ i ∈ rs.intervals, i.id = 2 :=
  entity_index_exact broughtBack (.step (.restart 0 1000 [1])
    (.step (.move (.gc 1000 0)) bookedOnce_lived trivial trivial) (List.Perm.refl [1]) bookedOnce_clean) 2 1

/-- A resource that is deleted while it has a booking leaves the booking's id in the log: after
    the next start the id leads to a resource that does not exist. -/
theorem deletedBooked_dangling : ∃ e, Lived (fun _ _ => True) e ∧ e.store.getResourceForEntity 2 = some 1 ∧
    e.store.getResource 1 = none := by
  refine ⟨(bookedOnce.next (.op (.deleteResource 1))).after (.restart 0 1000 []), ?_, ?_, ?_⟩
  · have booked : Lived (fun _ _ => True) bookedOnce :=
      .step (.move (.op _)) (.step (.move (.op _)) (.start 0 1000) trivial trivial) trivial trivial
    exact .step (.restart 0 1000 []) (.step (.move (.op (.deleteResource 1))) booked trivial trivial) (List.Perm.refl [])
      trivial
  · decide +kernel
  · decide +kernel

end Engine

end Deltat
