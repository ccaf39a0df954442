import Deltat.Store

/-! # What the store's operations do to its four views

Everything the engine reads of the store goes through four lookups: the resource table,
the entity index, the parent index and the child index. Each operation changes some of
them at one key and leaves the rest.
-/

namespace Deltat

namespace InMemoryStore

section Views

variable (s : InMemoryStore) (id x r : Ulid)

@[simp] theorem insertResource_getResource (state : ResourceState) :
    (s.insertResource id state).getResource r = if r = id then some state else s.getResource r := by
  by_cases same : r = id
  · subst same; simp [insertResource, getResource]
  · simp [insertResource, getResource, AList.lookup_insert_ne, same]

@[simp] theorem insertResource_getParent (state : ResourceState) :
    (s.insertResource id state).getParent r =
      if r = id then state.parentId.or (s.getParent r) else s.getParent r := by
  unfold insertResource getParent
  cases parent : state.parentId with
  | none => by_cases same : r = id <;> simp [same]
  | some pid =>
      by_cases same : r = id
      · subst same; simp
      · simp [AList.lookup_insert_ne, same]

@[simp] theorem insertResource_getResourceForEntity (state : ResourceState) :
    (s.insertResource id state).getResourceForEntity x = s.getResourceForEntity x := rfl

@[simp] theorem insertResource_getChildren (state : ResourceState) :
    (s.insertResource id state).getChildren x = s.getChildren x := rfl

@[simp] theorem removeResource_getResource :
    (s.removeResource id).getResource r = if r = id then none else s.getResource r := by
  by_cases same : r = id
  · subst same; simp [removeResource, getResource]
  · simp [removeResource, getResource, AList.lookup_erase_ne, same]

@[simp] theorem removeResource_getParent :
    (s.removeResource id).getParent r = if r = id then none else s.getParent r := by
  by_cases same : r = id
  · subst same; simp [removeResource, getParent]
  · simp [removeResource, getParent, AList.lookup_erase_ne, same]

@[simp] theorem removeResource_getResourceForEntity :
    (s.removeResource id).getResourceForEntity x = s.getResourceForEntity x := rfl

@[simp] theorem removeResource_getChildren :
    (s.removeResource id).getChildren x = s.getChildren x := rfl

@[simp] theorem detachParent_getResource : (s.detachParent id).getResource r = s.getResource r := rfl

@[simp] theorem detachParent_getParent :
    (s.detachParent id).getParent r = if r = id then none else s.getParent r := by
  by_cases same : r = id
  · subst same; simp [detachParent, getParent]
  · simp [detachParent, getParent, AList.lookup_erase_ne, same]

@[simp] theorem detachParent_getResourceForEntity :
    (s.detachParent id).getResourceForEntity x = s.getResourceForEntity x := rfl

@[simp] theorem detachParent_getChildren : (s.detachParent id).getChildren x = s.getChildren x := rfl

@[simp] theorem mapEntity_getResource : (s.mapEntity x id).getResource r = s.getResource r := rfl

@[simp] theorem mapEntity_getParent : (s.mapEntity x id).getParent r = s.getParent r := rfl

@[simp] theorem mapEntity_getChildren : (s.mapEntity x id).getChildren r = s.getChildren r := rfl

@[simp] theorem mapEntity_getResourceForEntity :
    (s.mapEntity id r).getResourceForEntity x = if x = id then some r else s.getResourceForEntity x := by
  by_cases same : x = id
  · subst same; simp [mapEntity, getResourceForEntity]
  · simp [mapEntity, getResourceForEntity, AList.lookup_insert_ne, same]

@[simp] theorem unmapEntity_getResource : (s.unmapEntity x).getResource r = s.getResource r := rfl

@[simp] theorem unmapEntity_getParent : (s.unmapEntity x).getParent r = s.getParent r := rfl

@[simp] theorem unmapEntity_getChildren : (s.unmapEntity x).getChildren r = s.getChildren r := rfl

@[simp] theorem unmapEntity_getResourceForEntity :
    (s.unmapEntity id).getResourceForEntity x = if x = id then none else s.getResourceForEntity x := by
  by_cases same : x = id
  · subst same; simp [unmapEntity, getResourceForEntity]
  · simp [unmapEntity, getResourceForEntity, AList.lookup_erase_ne, same]

@[simp] theorem addChild_getResource : (s.addChild id x).getResource r = s.getResource r := rfl

@[simp] theorem addChild_getParent : (s.addChild id x).getParent r = s.getParent r := rfl

@[simp] theorem addChild_getResourceForEntity :
    (s.addChild id r).getResourceForEntity x = s.getResourceForEntity x := rfl

@[simp] theorem addChild_getChildren :
    (s.addChild id x).getChildren r = if r = id then s.getChildren r ++ [x] else s.getChildren r := by
  by_cases same : r = id
  · subst same; simp [addChild, getChildren]
  · simp [addChild, getChildren, AList.lookup_insert_ne, same]

@[simp] theorem removeChild_getResource : (s.removeChild id x).getResource r = s.getResource r := by
  unfold removeChild; split <;> rfl

@[simp] theorem removeChild_getParent : (s.removeChild id x).getParent r = s.getParent r := by
  unfold removeChild; split <;> rfl

@[simp] theorem removeChild_getResourceForEntity :
    (s.removeChild id r).getResourceForEntity x = s.getResourceForEntity x := by
  unfold removeChild; split <;> rfl

@[simp] theorem removeChild_getChildren :
    (s.removeChild id x).getChildren r =
      if r = id then (s.getChildren r).filter (· ≠ x) else s.getChildren r := by
  unfold removeChild
  cases kids : s.children.lookup id with
  | none =>
      by_cases same : r = id
      · subst same; simp [getChildren, kids]
      · simp [same]
  | some kids' =>
      by_cases same : r = id
      · subst same; simp [getChildren, kids]
      · simp [getChildren, AList.lookup_insert_ne, same]

end Views

/-- Unmapping a list of entities touches only the entity index, at those entities. -/
theorem unmapIntervals_tables (intervals : List Interval) : ∀ s : InMemoryStore,
    (s.unmapIntervals intervals).resources = s.resources ∧
      (s.unmapIntervals intervals).parents = s.parents ∧
      (s.unmapIntervals intervals).children = s.children := by
  induction intervals with
  | nil => exact fun _ => ⟨rfl, rfl, rfl⟩
  | cons i rest ih => exact fun s => ih (s.unmapEntity i.id)

@[simp] theorem unmapIntervals_getResource (s : InMemoryStore) (intervals : List Interval) (r : Ulid) :
    (s.unmapIntervals intervals).getResource r = s.getResource r := by
  simp only [getResource, (unmapIntervals_tables intervals s).1]

@[simp] theorem unmapIntervals_getParent (s : InMemoryStore) (intervals : List Interval) (r : Ulid) :
    (s.unmapIntervals intervals).getParent r = s.getParent r := by
  simp only [getParent, (unmapIntervals_tables intervals s).2.1]

@[simp] theorem unmapIntervals_getChildren (s : InMemoryStore) (intervals : List Interval) (r : Ulid) :
    (s.unmapIntervals intervals).getChildren r = s.getChildren r := by
  simp only [getChildren, (unmapIntervals_tables intervals s).2.2]

@[simp] theorem unmapIntervals_getResourceForEntity (intervals : List Interval) (x : Ulid) :
    ∀ s : InMemoryStore, (s.unmapIntervals intervals).getResourceForEntity x =
      if x ∈ intervals.map (·.id) then none else s.getResourceForEntity x := by
  induction intervals with
  | nil => simp [unmapIntervals]
  | cons i rest ih =>
      intro s
      change ((s.unmapEntity i.id).unmapIntervals rest).getResourceForEntity x = _
      simp only [ih, unmapEntity_getResourceForEntity, List.map_cons, List.mem_cons]
      by_cases first : x = i.id <;> by_cases later : x ∈ rest.map (·.id) <;> simp [first, later]

end InMemoryStore

/-! ## A single-resource change: at most one removal, one addition, and fields -/

namespace Event

/-- The id whose interval a change takes off its resource. -/
def removes : Event → Option Ulid
  | ruleUpdated id .. | ruleRemoved id _ | holdReleased id _ | bookingCancelled id _ => some id
  | _ => none

/-- The interval a change puts on its resource. -/
def adds : Event → Option Interval
  | ruleAdded id _ span flag | ruleUpdated id _ span flag => some ⟨id, span, .ofBlocking flag⟩
  | holdPlaced id _ span expiresAt => some ⟨id, span, .hold expiresAt⟩
  | bookingConfirmed id _ span label => some ⟨id, span, .booking label⟩
  | _ => none

/-- Only an update of a rule does both, and it keeps the id. -/
theorem adds_removed {ev : Event} {i : Interval} {x : Ulid} (added : ev.adds = some i)
    (removed : ev.removes = some x) : i.id = x := by
  cases ev <;> cases added
  all_goals cases removed
  rfl

/-- The entity ids a change is about. -/
def touches (ev : Event) : List Ulid := ev.removes.toList ++ (ev.adds.map (·.id)).toList

/-- The single-resource changes of an event that fall on resource `r`. -/
def changesOn (r : Ulid) (ev : Event) : List Event := ev.perResource.filter (·.resourceId? = some r)

theorem ownPart_eq_changesOn {ev : Event} {r : Ulid}
    (routed : (∃ commits, ev = .holdsCommitted commits) ∨ ev.resourceId? = some r) :
    ev.ownPart r = ev.changesOn r := by
  obtain ⟨commits, rfl⟩ | onResource := routed
  · simp only [ownPart, changesOn, perResource]
    induction commits with
    | nil => rfl
    | cons c rest ih =>
        by_cases own : c.resourceId = r <;>
          simp [HoldCommit.events, resourceId?, own, ih]
  · cases ev <;> simp_all [ownPart, changesOn, perResource, resourceId?]

/-- What is left of a resource's fields after a partial update. -/
def setFields (ev : Event) (rs : ResourceState) : ResourceState :=
  match ev with
  | resourceUpdated _ name capacity bufferAfter =>
      { rs with
        name := name.getD rs.name
        capacity := capacity.getD rs.capacity
        bufferAfter := bufferAfter.getD rs.bufferAfter }
  | _ => rs

end Event

namespace ResourceState

def take (rs : ResourceState) : Option Ulid → ResourceState
  | some id => rs.removeInterval id
  | none => rs

def put (rs : ResourceState) : Option Interval → ResourceState
  | some i => rs.insertInterval i
  | none => rs

/-- Every change is a removal, then an insertion, then a partial update, each possibly absent. -/
theorem applySingle_eq (rs : ResourceState) (ev : Event) :
    rs.applySingle ev = ev.setFields ((rs.take ev.removes).put ev.adds) := by
  cases ev <;> rfl

end ResourceState

namespace InMemoryStore

theorem indexSingle_eq (s : InMemoryStore) {ev : Event} {r : Ulid}
    (onResource : ev.resourceId? = some r) :
    s.indexSingle ev = match ev.adds, ev.removes with
      | some i, _ => s.mapEntity i.id r
      | none, some x => s.unmapEntity x
      | none, none => s := by
  cases ev <;> simp_all [Event.resourceId?, InMemoryStore.indexSingle, Event.adds, Event.removes]

/-- The entity index after a change: what it adds is mapped, what it only removes is not. -/
theorem indexSingle_getResourceForEntity (s : InMemoryStore) {ev : Event} {r : Ulid}
    (onResource : ev.resourceId? = some r) (x : Ulid) :
    (s.indexSingle ev).getResourceForEntity x =
      if ev.adds.map (·.id) = some x then some r
      else if ev.removes = some x then none
      else s.getResourceForEntity x := by
  rw [indexSingle_eq s onResource]
  cases added : ev.adds with
  | some i =>
      by_cases same : x = i.id
      · simp [same]
      · cases removed : ev.removes with
        | none => simp [same, Ne.symm same]
        | some y => simp [← Event.adds_removed added removed, same, Ne.symm same]
  | none =>
      cases removed : ev.removes with
      | none => simp
      | some y => by_cases same : x = y <;> simp [same, eq_comm]

/-- Apply a single-resource change to its resource. -/
def replayChange (s : InMemoryStore) (ev : Event) : InMemoryStore :=
  match ev.resourceId? with
  | some r => s.replayOn r ev
  | none => s

section Replay

variable {s : InMemoryStore} {ev : Event} {r : Ulid} {rs : ResourceState}

theorem replayOn_none (absent : s.getResource r = none) : s.replayOn r ev = s := by
  simp only [replayOn, absent]

theorem ownPart_single (onResource : ev.resourceId? = some r) (own : Ulid) : ev.ownPart own = [ev] := by
  cases ev <;> simp_all [Event.ownPart, Event.resourceId?]

theorem indexSingle_resources (s : InMemoryStore) (ev : Event) :
    (s.indexSingle ev).resources = s.resources ∧ (s.indexSingle ev).parents = s.parents ∧
      (s.indexSingle ev).children = s.children := by
  cases ev <;> exact ⟨rfl, rfl, rfl⟩

theorem replayChange_eq (onResource : ev.resourceId? = some r) (present : s.getResource r = some rs) :
    s.replayChange ev =
      { s.indexSingle ev with resources := s.resources.insert r (rs.applySingle ev) } := by
  simp only [replayChange, onResource, replayOn, present, applyEvent, ownPart_single onResource,
    List.foldl_cons, List.foldl_nil]

theorem replayChange_getResource (onResource : ev.resourceId? = some r) (x : Ulid) :
    (s.replayChange ev).getResource x =
      if x = r then (s.getResource r).map (·.applySingle ev) else s.getResource x := by
  cases present : s.getResource r with
  | none =>
      simp only [replayChange, onResource, replayOn_none present]
      by_cases same : x = r <;> simp [same, present]
  | some rs =>
      rw [replayChange_eq onResource present]
      by_cases same : x = r
      · subst same; simp [getResource]
      · simp [getResource, AList.lookup_insert_ne, same]

theorem replayChange_getParent (ev : Event) (x : Ulid) : (s.replayChange ev).getParent x = s.getParent x := by
  cases onResource : ev.resourceId? with
  | none => simp only [replayChange, onResource]
  | some r =>
      cases present : s.getResource r with
      | none => simp only [replayChange, onResource, replayOn_none present]
      | some rs =>
          rw [replayChange_eq onResource present]
          simp only [getParent, (indexSingle_resources s ev).2.1]

theorem replayChange_getChildren (ev : Event) (x : Ulid) :
    (s.replayChange ev).getChildren x = s.getChildren x := by
  cases onResource : ev.resourceId? with
  | none => simp only [replayChange, onResource]
  | some r =>
      cases present : s.getResource r with
      | none => simp only [replayChange, onResource, replayOn_none present]
      | some rs =>
          rw [replayChange_eq onResource present]
          simp only [getChildren, (indexSingle_resources s ev).2.2]

theorem replayChange_getResourceForEntity (onResource : ev.resourceId? = some r)
    (present : s.getResource r = some rs) (x : Ulid) :
    (s.replayChange ev).getResourceForEntity x =
      if ev.adds.map (·.id) = some x then some r
      else if ev.removes = some x then none
      else s.getResourceForEntity x := by
  rw [replayChange_eq onResource present]
  exact indexSingle_getResourceForEntity s onResource x

end Replay

end InMemoryStore

end Deltat
