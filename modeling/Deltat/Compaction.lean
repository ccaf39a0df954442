import Deltat.Mutations

/-! # Compaction

The log is rewritten as the events that recreate the current state: every resource
snapshotted under its own lock, ancestors before descendants, followed by the records
acknowledged while the snapshots were taken.
-/

namespace Deltat

open Limits

/-- The single event that recreates one live interval. -/
def Interval.toEvent (resourceId : Ulid) (i : Interval) : Event :=
  match i.kind with
  | .nonBlocking => .ruleAdded i.id resourceId i.span false
  | .blocking => .ruleAdded i.id resourceId i.span true
  | .hold expiresAt => .holdPlaced i.id resourceId i.span expiresAt
  | .booking label => .bookingConfirmed i.id resourceId i.span label

namespace Compaction

/-- The walk up from a resource; the first argument bounds it, the second counts. -/
def depthFrom (parentOf : Ulid → Option (Option Ulid)) : Nat → Nat → Ulid → Nat
  | 0, depth, _ => depth
  | fuel + 1, depth, current =>
      match parentOf current with
      | some (some pid) => depthFrom parentOf fuel (depth + 1) pid
      | _ => depth

/-- Depth of a resource in the tree (root = 0), used to order ancestors before descendants. -/
def resourceDepth (parentOf : Ulid → Option (Option Ulid)) (id : Ulid) : Nat :=
  depthFrom parentOf (maxHierarchyDepth + 1) 0 id

/-- The parent links among the snapshots. -/
def parentOf (snapshots : List ResourceState) (id : Ulid) : Option (Option Ulid) :=
  (snapshots.find? (·.id = id)).map (·.parentId)

/-- The events that recreate one resource. -/
def resourceEvents (snap : ResourceState) : List Event :=
  .resourceCreated snap.id snap.parentId snap.name snap.capacity snap.bufferAfter ::
    snap.intervals.map (·.toEvent snap.id)

/-- The events that recreate the snapshotted resources, ancestors first. -/
def snapshotEvents (snapshots : List ResourceState) : List Event :=
  (snapshots.insertionSort fun a b =>
    resourceDepth (parentOf snapshots) a.id ≤ resourceDepth (parentOf snapshots) b.id).flatMap resourceEvents

/-- Append the records acknowledged during the window, commits as their steps, without the
    additions whose id the snapshot carries. -/
def mergeRecorded (snapshot recorded : List Event) : List Event :=
  let snapshotIds := snapshot.filterMap Event.addedId
  snapshot ++ (recorded.flatMap Event.perResource).filter fun event => event.addedId.all (!snapshotIds.contains ·)

end Compaction

namespace Engine

/-- Compaction with no other operation in between. The resource table lists its ids in any
    order; a stopped tenant refuses. -/
def compactWal (e : Engine) (order : List Ulid) : Engine :=
  if e.failed then e
  else
    { e with
      log := Compaction.mergeRecorded (Compaction.snapshotEvents (order.filterMap e.store.getResource)) [] }

end Engine

end Deltat
