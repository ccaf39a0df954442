import Deltat.Checks

/-! # What an admitted write does

An engine whose log writer has not failed changes in one way only: it appends records to
the log and applies them to memory. A write is described by its records, by why they were
admitted, and by what each resource is afterwards.
-/

namespace Deltat

open Lib Lib.Outcome Limits Conflict

namespace InMemoryStore

variable {s : InMemoryStore}

/-- The store with a new resource linked under its parent. -/
def create (s : InMemoryStore) (id : Ulid) (parentId : Option Ulid) (name : Option String)
    (capacity : UInt32) (bufferAfter : Option Ms) : InMemoryStore :=
  let s := s.insertResource id (.new id parentId name capacity bufferAfter)
  match parentId with
  | some pid => s.addChild pid id
  | none => s

theorem create_getResource (id : Ulid) (parentId : Option Ulid) (name : Option String) (capacity : UInt32)
    (bufferAfter : Option Ms) (r : Ulid) :
    (s.create id parentId name capacity bufferAfter).getResource r =
      if r = id then some (.new id parentId name capacity bufferAfter) else s.getResource r := by
  cases parentId <;> simp [create]

theorem create_getChildren (id : Ulid) (parentId : Option Ulid) (name : Option String) (capacity : UInt32)
    (bufferAfter : Option Ms) (p : Ulid) :
    (s.create id parentId name capacity bufferAfter).getChildren p =
      if parentId = some p then s.getChildren p ++ [id] else s.getChildren p := by
  cases parentId <;> simp [create, eq_comm]

theorem create_getParent (id : Ulid) (parentId : Option Ulid) (name : Option String) (capacity : UInt32)
    (bufferAfter : Option Ms) (x : Ulid) :
    (s.create id parentId name capacity bufferAfter).getParent x =
      if x = id then parentId.or (s.getParent x) else s.getParent x := by
  cases parentId <;> simp [create, ResourceState.new]

theorem create_getResourceForEntity (id : Ulid) (parentId : Option Ulid) (name : Option String)
    (capacity : UInt32) (bufferAfter : Option Ms) (x : Ulid) :
    (s.create id parentId name capacity bufferAfter).getResourceForEntity x = s.getResourceForEntity x := by
  cases parentId <;> rfl

theorem Indexed.create (c : s.Indexed) {id : Ulid} {parentId : Option Ulid} {name : Option String}
    {capacity : UInt32} {bufferAfter : Option Ms}
    (wf : (ResourceState.new id parentId name capacity bufferAfter).WellFormed)
    (absent : s.getResource id = none) : (s.create id parentId name capacity bufferAfter).Indexed := by
  constructor
  case ids =>
    intro r rs found
    rw [create_getResource] at found
    split at found
    · next same => cases found; exact same.symm
    · exact c.ids r rs found
  case wellFormed =>
    intro r rs found
    rw [create_getResource] at found
    split at found
    · cases found; exact wf
    · exact c.wellFormed r rs found
  case entities =>
    intro x r
    rw [create_getResourceForEntity, c.entities, create_getResource]
    split
    · next same => subst same; simp [absent, ResourceState.new]
    · rfl

theorem Consistent.create (c : s.Consistent) {id : Ulid} {parentId : Option Ulid} {name : Option String}
    {capacity : UInt32} {bufferAfter : Option Ms}
    (wf : (ResourceState.new id parentId name capacity bufferAfter).WellFormed)
    (absent : s.getResource id = none)
    (parent : ∀ p, parentId = some p → p ≠ id ∧ (s.getResource p).isSome) :
    (s.create id parentId name capacity bufferAfter).Consistent := by
  have notChild : ∀ p, id ∉ s.getChildren p := by
    intro p inside
    obtain ⟨rs, present, _⟩ := (c.children p id).mp inside
    rw [absent] at present
    cases present
  obtain ⟨ids, wellFormed, entities⟩ := c.indexed.create wf absent
  refine ⟨ids, wellFormed, entities, ?parents, ?parentExists, ?children, ?childrenNodup⟩
  case parents =>
    intro x
    rw [create_getParent, c.parents, create_getResource]
    split
    · next same => subst same; simp [absent, ResourceState.new]
    · rfl
  case parentExists =>
    intro x rs p found hasParent
    rw [create_getResource] at found ⊢
    split at found
    · cases found
      obtain ⟨apart, present⟩ := parent p hasParent
      rw [if_neg apart]
      exact present
    · have present := c.parentExists x rs p found hasParent
      split
      · rfl
      · exact present
  case children =>
    intro p x
    rw [create_getChildren, create_getResource]
    by_cases same : x = id
    · subst same
      by_cases under : parentId = some p <;> simp [under, notChild p, ResourceState.new]
    · rw [if_neg same, ← c.children p x]
      split <;> simp [same]
  case childrenNodup =>
    intro p
    rw [create_getChildren]
    split
    · exact (c.childrenNodup p).append (List.nodup_singleton id) (by simpa using notChild p)
    · exact c.childrenNodup p

/-- Unmapping the entities of a resource leaves it in the table. -/
theorem unlink_getResource (s : InMemoryStore) (rs : ResourceState) (id r : Ulid) :
    (s.unlink rs id).getResource r = s.getResource r := by
  unfold unlink
  cases rs.parentId <;> simp

theorem unlink_getParent {s : InMemoryStore} {rs : ResourceState} {id : Ulid} (r : Ulid) :
    (s.unlink rs id).getParent r = s.getParent r := by
  unfold unlink
  cases rs.parentId <;> simp

theorem unlink_getChildren {s : InMemoryStore} {rs : ResourceState} {id : Ulid} (r : Ulid) :
    (s.unlink rs id).getChildren r =
      if rs.parentId = some r then (s.getChildren r).filter (· ≠ id) else s.getChildren r := by
  unfold unlink
  cases rs.parentId <;> simp [eq_comm]

/-- The store without a resource that has no children. -/
def delete (s : InMemoryStore) (rs : ResourceState) (id : Ulid) : InMemoryStore :=
  (s.unlink rs id).removeResource id

theorem delete_getResource (rs : ResourceState) (id r : Ulid) :
    (s.delete rs id).getResource r = if r = id then none else s.getResource r := by
  unfold delete unlink
  cases rs.parentId <;> simp

theorem delete_getParent (rs : ResourceState) (id r : Ulid) :
    (s.delete rs id).getParent r = if r = id then none else s.getParent r := by
  unfold delete unlink
  cases rs.parentId <;> simp

theorem delete_getChildren (rs : ResourceState) (id p : Ulid) :
    (s.delete rs id).getChildren p =
      if rs.parentId = some p then (s.getChildren p).filter (· ≠ id) else s.getChildren p := by
  unfold delete unlink
  cases rs.parentId <;> simp [eq_comm]

theorem delete_getResourceForEntity (rs : ResourceState) (id x : Ulid) :
    (s.delete rs id).getResourceForEntity x =
      if x ∈ rs.intervals.map (·.id) then none else s.getResourceForEntity x := by
  unfold delete unlink
  cases rs.parentId <;> simp

theorem Indexed.delete (c : s.Indexed) {rs : ResourceState} {id : Ulid} (present : s.getResource id = some rs) :
    (s.delete rs id).Indexed := by
  constructor
  case ids =>
    intro r rs' found
    rw [delete_getResource] at found
    split at found
    · cases found
    · exact c.ids r rs' found
  case wellFormed =>
    intro r rs' found
    rw [delete_getResource] at found
    split at found
    · cases found
    · exact c.wellFormed r rs' found
  case entities =>
    intro x r
    rw [delete_getResourceForEntity, delete_getResource]
    have before := c.entities x
    split
    · next inside =>
        have here := (before id).mpr ⟨rs, present, inside⟩
        split
        · simp
        · next apart =>
            rw [← before r, here]
            simp [Ne.symm apart]
    · next outside =>
        rw [before r]
        split
        · next same => subst same; simpa [present] using outside
        · rfl

theorem Consistent.delete (c : s.Consistent) {rs : ResourceState} {id : Ulid}
    (present : s.getResource id = some rs) (childless : s.getChildren id = []) :
    (s.delete rs id).Consistent := by
  have notParent : ∀ x rs', s.getResource x = some rs' → rs'.parentId ≠ some id := by
    intro x rs' found under
    have inside := (c.children id x).mpr ⟨rs', found, under⟩
    rw [childless] at inside
    cases inside
  obtain ⟨ids, wellFormed, entities⟩ := c.indexed.delete present
  refine ⟨ids, wellFormed, entities, ?parents, ?parentExists, ?children, ?childrenNodup⟩
  case parents =>
    intro x
    rw [delete_getParent, c.parents, delete_getResource]
    split <;> rfl
  case parentExists =>
    intro x rs' p found hasParent
    rw [delete_getResource] at found ⊢
    split at found
    · cases found
    · have apart : p ≠ id := fun same => notParent x rs' found (same ▸ hasParent)
      rw [if_neg apart]
      exact c.parentExists x rs' p found hasParent
  case children =>
    intro p x
    rw [delete_getChildren, delete_getResource]
    by_cases same : x = id
    · subst same
      split
      · simp
      · next apart => simp [c.children, present, apart]
    · rw [if_neg same, ← c.children p x]
      split <;> simp [same]
  case childrenNodup =>
    intro p
    rw [delete_getChildren]
    split
    · exact (c.childrenNodup p).filter _
    · exact c.childrenNodup p

end InMemoryStore

/-! ## One record on one resource -/

namespace Event

/-- Whether an event changes resources that exist: neither a create nor a delete. -/
def isChange : Event → Bool
  | resourceCreated .. | resourceDeleted _ => false
  | _ => true

/-- What one record does to the table entry of resource `r`. -/
def stepOn (r : Ulid) (entry : Option ResourceState) : Event → Option ResourceState
  | resourceCreated id parentId name capacity bufferAfter =>
      if id = r then some (.new id parentId name capacity bufferAfter) else entry
  | resourceDeleted id => if id = r then none else entry
  | ev => entry.map ((ev.changesOn r).foldl ResourceState.applySingle)

theorem perResource_single {ev : Event} {r : Ulid} (routed : ev.resourceId? = some r) :
    ev.perResource = [ev] := by
  cases ev <;> first | rfl | cases routed

theorem stepOn_change {ev : Event} (change : ev.isChange) (r : Ulid) (entry : Option ResourceState) :
    ev.stepOn r entry = entry.map ((ev.changesOn r).foldl ResourceState.applySingle) := by
  cases ev <;> first | rfl | cases change

/-- Change records act on a resource as their single-resource changes, one after another. -/
theorem foldl_stepOn (r : Ulid) {records : List Event} (changes : ∀ ev ∈ records, ev.isChange) :
    ∀ entry : Option ResourceState, records.foldl (fun entry ev => ev.stepOn r entry) entry =
      entry.map (((records.flatMap perResource).filter (·.resourceId? = some r)).foldl
        ResourceState.applySingle) := by
  induction records with
  | nil => intro entry; simp
  | cons ev rest ih =>
      intro entry
      rw [List.foldl_cons, ih (fun ev' inRest => changes ev' (List.mem_cons_of_mem _ inRest)),
        stepOn_change (changes ev List.mem_cons_self), Option.map_map, List.flatMap_cons, List.filter_append]
      congr 1
      funext rs
      rw [Function.comp_apply, List.foldl_append]
      rfl

end Event

namespace Engine

/-! ## Locks taken in ascending order -/

/-- The changes in the order the locked resources apply them. -/
def regroup (locked : List Ulid) (changes : List Event) : List Event :=
  locked.flatMap fun r => changes.filter (·.resourceId? = some r)

theorem mem_regroup {locked : List Ulid} {changes : List Event} {ev : Event}
    (inside : ev ∈ regroup locked changes) :
    ev ∈ changes ∧ ∃ r ∈ locked, ev.resourceId? = some r := by
  obtain ⟨r, isLocked, onResource⟩ := List.mem_flatMap.mp inside
  obtain ⟨member, routed⟩ := List.mem_filter.mp onResource
  exact ⟨member, r, isLocked, by simpa using routed⟩

theorem applyChanges_eq (changes : List Event) (s : InMemoryStore) (r : Ulid) :
    applyChanges changes s r = s.replayChanges (changes.filter (·.resourceId? = some r)) := by
  unfold applyChanges InMemoryStore.replayChanges
  refine List.foldl_ext _ _ _ fun s ev inside => ?_
  have routed : ev.resourceId? = some r := by simpa using (List.mem_filter.mp inside).2
  simp only [InMemoryStore.replayChange, routed]

theorem foldl_applyChanges (changes : List Event) (locked : List Ulid) : ∀ s : InMemoryStore,
    locked.foldl (applyChanges changes) s = s.replayChanges (regroup locked changes) := by
  induction locked with
  | nil => exact fun _ => rfl
  | cons r rest ih =>
      intro s
      rw [List.foldl_cons, ih, applyChanges_eq]
      simp only [InMemoryStore.replayChanges, regroup, List.flatMap_cons, List.foldl_append]

/-- Regrouping by resource keeps every resource's own changes, in order. -/
theorem regroup_filter {locked : List Ulid} (nodup : locked.Nodup) {changes : List Event}
    (routed : ∀ ev ∈ changes, ∃ r ∈ locked, ev.resourceId? = some r) (x : Ulid) :
    (regroup locked changes).filter (·.resourceId? = some x) = changes.filter (·.resourceId? = some x) := by
  have onOne : ∀ locked : List Ulid, locked.Nodup → (regroup locked changes).filter (·.resourceId? = some x) =
      if x ∈ locked then changes.filter (·.resourceId? = some x) else [] := by
    intro locked nodup
    induction locked with
    | nil => rfl
    | cons r rest ih =>
        obtain ⟨notAgain, nodup⟩ := List.nodup_cons.mp nodup
        have split : regroup (r :: rest) changes =
            changes.filter (·.resourceId? = some r) ++ regroup rest changes := rfl
        rw [split, List.filter_append, ih nodup, List.filter_filter]
        by_cases same : r = x
        · subst same
          simp [notAgain]
        · have none : changes.filter (fun ev => decide (ev.resourceId? = some x) &&
              decide (ev.resourceId? = some r)) = [] := by
            refine List.filter_eq_nil_iff.mpr fun ev _ both => ?_
            simp only [Bool.and_eq_true, decide_eq_true_eq] at both
            exact same (Option.some.inj (both.2.symm.trans both.1))
          simp [none, Ne.symm same]
  rw [onOne locked nodup]
  split
  · rfl
  · next outside =>
      refine (List.filter_eq_nil_iff.mpr fun ev inside onX => ?_).symm
      obtain ⟨r, isLocked, here⟩ := routed ev inside
      rw [decide_eq_true_eq, here] at onX
      exact outside (Option.some.inj onX ▸ isLocked)

theorem regroup_allApply {s : InMemoryStore} {locked : List Ulid} (nodup : locked.Nodup) {changes : List Event}
    (all : s.AllApply changes) : s.AllApply (regroup locked changes) where
  applies ev inside := all.applies ev (mem_regroup inside).1
  apart := by
    refine List.pairwise_flatMap.mpr ⟨fun r _ => all.apart.sublist List.filter_sublist, ?_⟩
    refine nodup.imp fun {r q} apart a onR b onQ => ?_
    obtain ⟨aIn, aRouted⟩ := List.mem_filter.mp onR
    obtain ⟨bIn, bRouted⟩ := List.mem_filter.mp onQ
    refine all.apart.forall aIn bIn fun same => apart ?_
    rw [decide_eq_true_eq] at aRouted bRouted
    rw [same, bRouted] at aRouted
    exact (Option.some.inj aRouted).symm

end Engine

end Deltat
