import Deltat.Runs

/-! # Replay

On startup the engine applies every record of its log to an empty store: creates and deletes
are handled by the loop itself, every other record goes to each resource it names. A sweep
then turns children whose parent is gone into roots.
-/

namespace Deltat

namespace InMemoryStore

/-- One record of the log. -/
def replayEvent (s : InMemoryStore) : Event → InMemoryStore
  | .resourceCreated id parentId name capacity bufferAfter =>
      let s := s.insertResource id (.new id parentId name capacity bufferAfter)
      match parentId with
      | some pid => s.addChild pid id
      | none => s
  | .resourceDeleted id =>
      let s := match (s.getResource id).bind (·.parentId) with
        | some pid => s.removeChild pid id
        | none => s
      s.removeResource id
  | .holdsCommitted commits =>
      (Engine.ascending (commits.map (·.resourceId))).foldl (·.replayOn · (.holdsCommitted commits)) s
  | other =>
      match other.resourceId? with
      | some r => s.replayOn r other
      | none => s

/-- Turn a resource into a root when its parent does not exist. -/
def detachOrphan (s : InMemoryStore) (id : Ulid) : InMemoryStore :=
  match s.getResource id with
  | none => s
  | some rs =>
      match rs.parentId with
      | none => s
      | some pid =>
          if s.containsResource pid then s
          else
            let s := { s with resources := s.resources.insert id { rs with parentId := none } }
            (s.detachParent id).removeChild pid id

/-- The store that the loop leaves. -/
def replayed (events : List Event) : InMemoryStore := events.foldl replayEvent .empty

/-- The store of an engine built on a log, where the resource table lists its ids in the
    given order. -/
def rebuilt (events : List Event) (order : List Ulid) : InMemoryStore :=
  order.foldl detachOrphan (replayed events)

/-! ## The table -/

section Table

variable {s : InMemoryStore}

theorem replayOn_getResource (r : Ulid) (ev : Event) (x : Ulid) :
    (s.replayOn r ev).getResource x =
      if x = r then (s.getResource r).map (fun rs => (ev.ownPart rs.id).foldl ResourceState.applySingle rs)
      else s.getResource x := by
  unfold replayOn
  cases present : s.getResource r with
  | none => by_cases same : x = r <;> simp [same, present]
  | some rs =>
      by_cases same : x = r
      · subst same
        simp [applyEvent, getResource]
      · simp [getResource, AList.lookup_insert_ne, same]

theorem foldl_indexSingle_tables (changes : List Event) : ∀ s : InMemoryStore,
    (changes.foldl indexSingle s).parents = s.parents ∧ (changes.foldl indexSingle s).children = s.children := by
  induction changes with
  | nil => exact fun _ => ⟨rfl, rfl⟩
  | cons ev rest ih =>
      intro s
      obtain ⟨parents, children⟩ := ih (s.indexSingle ev)
      exact ⟨parents.trans (indexSingle_resources s ev).2.1, children.trans (indexSingle_resources s ev).2.2⟩

/-- Applying an event to a resource leaves the hierarchy. -/
theorem replayOn_links (r : Ulid) (ev : Event) (x : Ulid) :
    (s.replayOn r ev).getParent x = s.getParent x ∧ (s.replayOn r ev).getChildren x = s.getChildren x := by
  unfold replayOn
  cases s.getResource r with
  | none => exact ⟨rfl, rfl⟩
  | some rs =>
      have tables := foldl_indexSingle_tables (ev.ownPart rs.id) s
      simp only [applyEvent, getParent, getChildren]
      rw [tables.1, tables.2]
      exact ⟨rfl, rfl⟩

/-- What of a resource no change touches. -/
theorem replayOn_shape (r : Ulid) (ev : Event) (x : Ulid) :
    ((s.replayOn r ev).getResource x).map (fun rs => (rs.id, rs.parentId)) =
      (s.getResource x).map fun rs => (rs.id, rs.parentId) := by
  have kept : ∀ (changes : List Event) (rs : ResourceState),
      ((changes.foldl ResourceState.applySingle rs).id, (changes.foldl ResourceState.applySingle rs).parentId) =
        (rs.id, rs.parentId) := by
    intro changes
    induction changes with
    | nil => exact fun _ => rfl
    | cons ev rest ih =>
        intro rs
        rw [List.foldl_cons, ih, ResourceState.applySingle_id, ResourceState.applySingle_parentId]
  rw [replayOn_getResource]
  split
  · next same =>
      rw [same, Option.map_map]
      exact congrArg (Option.map · (s.getResource r)) (funext fun rs => kept _ rs)
  · rfl

/-- A table that names each resource by its id. -/
def Named (s : InMemoryStore) : Prop := ∀ r rs, s.getResource r = some rs → rs.id = r

theorem Named.of_shape (named : s.Named) {s' : InMemoryStore}
    (shape : ∀ x, (s'.getResource x).map (fun rs => (rs.id, rs.parentId)) =
      (s.getResource x).map fun rs => (rs.id, rs.parentId)) : s'.Named := by
  intro r rs' found
  have before := shape r
  rw [found] at before
  obtain ⟨rs, present, same⟩ := Option.map_eq_some_iff.mp before.symm
  exact (congrArg Prod.fst same).symm.trans (named r rs present)

theorem replayOn_own (named : s.Named) {r : Ulid} {ev : Event}
    (routed : (∃ commits, ev = .holdsCommitted commits) ∨ ev.resourceId? = some r) (x : Ulid) :
    (s.replayOn r ev).getResource x =
      if x = r then (s.getResource r).map ((ev.changesOn r).foldl ResourceState.applySingle)
      else s.getResource x := by
  rw [replayOn_getResource]
  split
  · cases present : s.getResource r with
    | none => rfl
    | some rs => rw [Option.map_some, Option.map_some, named r rs present, Event.ownPart_eq_changesOn routed]
  · rfl

/-- A commit handed to each of its resources changes each of them once. -/
theorem foldl_replayOn (commits : List HoldCommit) {rids : List Ulid} (nodup : rids.Nodup) (x : Ulid) :
    ∀ {s : InMemoryStore}, s.Named →
      (rids.foldl (·.replayOn · (.holdsCommitted commits)) s).getResource x =
        if x ∈ rids then
          (s.getResource x).map (((Event.holdsCommitted commits).changesOn x).foldl ResourceState.applySingle)
        else s.getResource x := by
  induction rids with
  | nil => intro s _; rfl
  | cons r rest ih =>
      intro s named
      obtain ⟨notAgain, nodup⟩ := List.nodup_cons.mp nodup
      have named' : (s.replayOn r (.holdsCommitted commits)).Named := named.of_shape (replayOn_shape r _)
      rw [List.foldl_cons, ih nodup named', replayOn_own named (.inl ⟨commits, rfl⟩)]
      by_cases same : x = r
      · subst same
        simp [notAgain]
      · simp [same]

/-- A record that changes no resource of this id. -/
theorem changesOn_holdsCommitted_nil {commits : List HoldCommit} {x : Ulid}
    (absent : x ∉ commits.map (·.resourceId)) : (Event.holdsCommitted commits).changesOn x = [] := by
  refine List.filter_eq_nil_iff.mpr fun ev inside routed => absent ?_
  obtain ⟨c, member, isEvent⟩ := List.mem_flatMap.mp inside
  have own : c.resourceId = x := by
    simp only [HoldCommit.events, List.mem_cons, List.not_mem_nil, or_false] at isEvent
    rcases isEvent with rfl | rfl <;> simpa [Event.resourceId?] using routed
  exact own ▸ List.mem_map_of_mem member

/-- What the loop does to the table is what the record says of each resource. -/
theorem replayEvent_getResource (named : s.Named) (ev : Event) (x : Ulid) :
    (s.replayEvent ev).getResource x = ev.stepOn x (s.getResource x) := by
  have single : ∀ {r : Ulid}, ev.isChange → ev.resourceId? = some r →
      (s.replayOn r ev).getResource x = ev.stepOn x (s.getResource x) := by
    intro r change routed
    rw [replayOn_own named (.inr routed), Event.stepOn_change change]
    split
    · next same => rw [same]
    · next apart =>
        have none : ev.changesOn x = [] := by
          rw [Event.changesOn, Event.perResource_single routed]
          simpa [routed] using Ne.symm apart
        simp [none]
  cases ev with
  | resourceCreated id parentId name capacity bufferAfter =>
      exact (create_getResource id parentId name capacity bufferAfter x).trans (by simp only [Event.stepOn, eq_comm])
  | resourceDeleted id =>
      unfold replayEvent
      simp only [removeResource_getResource, Event.stepOn, eq_comm]
      cases (s.getResource id).bind (·.parentId) <;> simp
  | holdsCommitted commits =>
      unfold replayEvent
      simp only
      rw [foldl_replayOn commits (Engine.ascending_nodup _) x named, Event.stepOn_change rfl]
      split
      · rfl
      · next absent =>
          rw [Engine.mem_ascending] at absent
          simp [changesOn_holdsCommitted_nil absent]
  | resourceUpdated | ruleAdded | ruleUpdated | ruleRemoved | holdPlaced | holdReleased | bookingConfirmed
  | bookingCancelled => exact single rfl rfl

/-- The hierarchy as the table has it. -/
structure Linked (s : InMemoryStore) : Prop where
  named : s.Named
  parents : ∀ c, s.getParent c = (s.getResource c).bind (·.parentId)
  children : ∀ p c, c ∈ s.getChildren p ↔ s.getParent c = some p
  childrenNodup : ∀ p, (s.getChildren p).Nodup

theorem empty_linked : empty.Linked := by
  constructor <;> simp [Named, empty, getResource, getParent, getChildren]

theorem Linked.of_shape (l : s.Linked) {s' : InMemoryStore}
    (shape : ∀ x, (s'.getResource x).map (fun rs => (rs.id, rs.parentId)) =
      (s.getResource x).map fun rs => (rs.id, rs.parentId))
    (links : ∀ x, s'.getParent x = s.getParent x ∧ s'.getChildren x = s.getChildren x) : s'.Linked where
  named := l.named.of_shape shape
  parents c := by
    have parent := congrArg (Option.bind · Prod.snd) (shape c)
    simp only [Option.bind_map, Function.comp_def] at parent
    rw [(links c).1, l.parents, parent]
  children p c := by rw [(links p).2, (links c).1, l.children]
  childrenNodup p := by rw [(links p).2]; exact l.childrenNodup p

theorem Linked.replayOn (l : s.Linked) (r : Ulid) (ev : Event) : (s.replayOn r ev).Linked :=
  l.of_shape (replayOn_shape r ev) (replayOn_links r ev)

theorem Linked.foldl_replayOn (ev : Event) (rids : List Ulid) :
    ∀ {s : InMemoryStore}, s.Linked → (rids.foldl (·.replayOn · ev) s).Linked := by
  induction rids with
  | nil => exact fun l => l
  | cons r rest ih => exact fun l => ih (l.replayOn r ev)

theorem Linked.create (l : s.Linked) {id : Ulid} (absent : s.getResource id = none) (parentId : Option Ulid)
    (name : Option String) (capacity : UInt32) (bufferAfter : Option Ms) :
    (s.create id parentId name capacity bufferAfter).Linked := by
  have root : s.getParent id = none := by rw [l.parents, absent]; rfl
  constructor
  case named =>
    intro r rs found
    rw [create_getResource] at found
    split at found
    · next same => cases found; exact same.symm
    · exact l.named r rs found
  case parents =>
    intro c
    rw [create_getParent, create_getResource]
    split
    · next same => rw [same, root, Option.or_none]; rfl
    · exact l.parents c
  case children =>
    intro p c
    rw [create_getChildren, create_getParent]
    by_cases same : c = id
    · subst same
      have notYet : c ∉ s.getChildren p := by rw [l.children, root]; simp
      by_cases under : parentId = some p <;> simp [under, notYet, root]
    · rw [if_neg same, ← l.children p c]
      split <;> simp [same]
  case childrenNodup =>
    intro p
    rw [create_getChildren]
    split
    · have notYet : id ∉ s.getChildren p := by rw [l.children, root]; simp
      exact (l.childrenNodup p).append (List.nodup_singleton id) (by simpa using notYet)
    · exact l.childrenNodup p

theorem Linked.resourceDeleted (l : s.Linked) (id : Ulid) : (s.replayEvent (.resourceDeleted id)).Linked := by
  have kids : ∀ p, (s.replayEvent (.resourceDeleted id)).getChildren p =
      if s.getParent id = some p then (s.getChildren p).filter (· ≠ id) else s.getChildren p := by
    intro p
    rw [l.parents]
    cases parent : (s.getResource id).bind (·.parentId) <;>
      simp only [replayEvent, parent, removeResource_getChildren, removeChild_getChildren, Option.some.injEq,
        reduceCtorEq, ↓reduceIte, eq_comm]
  have parent : ∀ c, (s.replayEvent (.resourceDeleted id)).getParent c = if c = id then none else s.getParent c := by
    intro c
    cases parent : (s.getResource id).bind (·.parentId) <;>
      simp only [replayEvent, parent, removeResource_getParent, removeChild_getParent]
  have table := replayEvent_getResource l.named (.resourceDeleted id)
  simp only [Event.stepOn] at table
  constructor
  case named =>
    intro r rs found
    rw [table] at found
    split at found
    · cases found
    · exact l.named r rs found
  case parents =>
    intro c
    rw [parent, table, l.parents]
    by_cases same : c = id
    · simp [same]
    · rw [if_neg same, if_neg (Ne.symm same)]
  case children =>
    intro p c
    rw [kids, parent]
    by_cases same : c = id
    · subst same
      split
      · simp
      · next apart => simp [l.children, apart]
    · rw [if_neg same, ← l.children p c]
      split <;> simp [same]
  case childrenNodup =>
    intro p
    rw [kids]
    split
    · exact (l.childrenNodup p).filter _
    · exact l.childrenNodup p

/-- The loop keeps the hierarchy in agreement when no resource is created twice. -/
theorem Linked.replayEvent (l : s.Linked) {ev : Event}
    (fresh : ∀ id parentId name capacity bufferAfter,
      ev = .resourceCreated id parentId name capacity bufferAfter → s.getResource id = none) :
    (s.replayEvent ev).Linked := by
  cases ev with
  | resourceCreated id parentId name capacity bufferAfter =>
      exact l.create (fresh _ _ _ _ _ rfl) parentId name capacity bufferAfter
  | resourceDeleted id => exact l.resourceDeleted id
  | holdsCommitted commits => exact l.foldl_replayOn _ _
  | resourceUpdated | ruleAdded | ruleUpdated | ruleRemoved | holdPlaced | holdReleased | bookingConfirmed
  | bookingCancelled => exact l.replayOn _ _

theorem Named.replayEvent (named : s.Named) (ev : Event) : (s.replayEvent ev).Named := by
  cases ev with
  | resourceCreated id parentId name capacity bufferAfter =>
      intro r rs found
      rw [replayEvent_getResource named] at found
      simp only [Event.stepOn] at found
      split at found
      · next same => cases found; exact same
      · exact named r rs found
  | resourceDeleted id =>
      intro r rs found
      rw [replayEvent_getResource named] at found
      simp only [Event.stepOn] at found
      split at found
      · cases found
      · exact named r rs found
  | holdsCommitted commits =>
      unfold InMemoryStore.replayEvent
      simp only
      generalize Engine.ascending (commits.map (·.resourceId)) = rids
      induction rids generalizing s with
      | nil => exact named
      | cons r rest ih => exact ih (named.of_shape (replayOn_shape r _))
  | resourceUpdated | ruleAdded | ruleUpdated | ruleRemoved | holdPlaced | holdReleased | bookingConfirmed
  | bookingCancelled => exact named.of_shape (replayOn_shape _ _)

/-- The table after records is what they say of each resource, one after another. -/
theorem foldl_replayEvent_getResource (x : Ulid) (events : List Event) : ∀ {s : InMemoryStore}, s.Named →
    (events.foldl replayEvent s).getResource x =
      events.foldl (fun entry ev => ev.stepOn x entry) (s.getResource x) := by
  induction events with
  | nil => exact fun _ => rfl
  | cons ev rest ih =>
      intro s named
      rw [List.foldl_cons, ih (named.replayEvent ev), replayEvent_getResource named, List.foldl_cons]

theorem replayed_append (events later : List Event) :
    replayed (events ++ later) = later.foldl replayEvent (replayed events) := List.foldl_append

theorem replayed_named (events : List Event) : (replayed events).Named := by
  unfold replayed
  have start := empty_linked.named
  generalize empty = s at start
  induction events generalizing s with
  | nil => exact start
  | cons ev rest ih => exact ih _ (start.replayEvent ev)

theorem replayed_getResource (events : List Event) (x : Ulid) :
    (replayed events).getResource x = events.foldl (fun entry ev => ev.stepOn x entry) none :=
  foldl_replayEvent_getResource x events empty_linked.named

theorem Linked.foldl_changes {events : List Event} (changes : ∀ ev ∈ events, ev.isChange) :
    ∀ {s : InMemoryStore}, s.Linked → (events.foldl InMemoryStore.replayEvent s).Linked := by
  induction events with
  | nil => exact fun l => l
  | cons ev rest ih =>
      intro s l
      refine ih (fun b inRest => changes b (List.mem_cons_of_mem _ inRest)) (l.replayEvent ?_)
      rintro id parentId name capacity bufferAfter rfl
      cases changes _ List.mem_cons_self

/-- The sweep leaves the intervals of every resource. -/
theorem detachOrphan_intervals (id r : Ulid) :
    ((s.detachOrphan id).getResource r).map (·.intervals) = (s.getResource r).map (·.intervals) := by
  unfold detachOrphan
  split
  · rfl
  · next rs present =>
      split
      · rfl
      · split
        · rfl
        · simp only [removeChild_getResource, detachParent_getResource]
          by_cases same : r = id
          · subst same
            rw [present]
            simp [getResource]
          · simp [getResource, AList.lookup_insert_ne, same]

/-- Where every parent exists, the sweep finds nothing to detach. -/
theorem foldl_detachOrphan (parents : ∀ c rs p, s.getResource c = some rs → rs.parentId = some p →
    (s.getResource p).isSome) (order : List Ulid) : order.foldl detachOrphan s = s := by
  have still : ∀ id, s.detachOrphan id = s := by
    intro id
    cases present : s.getResource id with
    | none => simp only [detachOrphan, present]
    | some rs =>
        cases parent : rs.parentId with
        | none => simp only [detachOrphan, present, parent]
        | some p =>
            have inTable : s.containsResource p = true := parents id rs p present parent
            simp only [detachOrphan, present, parent, inTable, ↓reduceIte]
  induction order with
  | nil => rfl
  | cons id rest ih => rw [List.foldl_cons, still, ih]

end Table

end InMemoryStore

end Deltat
