import Deltat.Model

/-! # In-memory resource state

The resource table, the entity-to-resource index and the child and parent indexes, with
the application of an event to one resource and the entity index.
-/

namespace Deltat

structure InMemoryStore where
  resources : DashMap Ulid ResourceState
  entityToResource : DashMap Ulid Ulid
  children : DashMap Ulid (List Ulid)
  /-- child -> parent, so that an ancestor walk needs no resource lock. -/
  parents : DashMap Ulid Ulid

namespace ResourceState

/-- The effect of a single-resource event on the resource it names. -/
def applySingle (rs : ResourceState) : Event → ResourceState
  | .ruleAdded id _ span flag => rs.insertInterval ⟨id, span, .ofBlocking flag⟩
  | .ruleUpdated id _ span flag => (rs.removeInterval id).insertInterval ⟨id, span, .ofBlocking flag⟩
  | .ruleRemoved id _ => rs.removeInterval id
  | .holdPlaced id _ span expiresAt => rs.insertInterval ⟨id, span, .hold expiresAt⟩
  | .holdReleased id _ => rs.removeInterval id
  | .bookingConfirmed id _ span label => rs.insertInterval ⟨id, span, .booking label⟩
  | .bookingCancelled id _ => rs.removeInterval id
  -- Only the fields the update carries are overwritten.
  | .resourceUpdated _ name capacity bufferAfter =>
      { rs with
        name := name.getD rs.name
        capacity := capacity.getD rs.capacity
        bufferAfter := bufferAfter.getD rs.bufferAfter }
  | .holdsCommitted _ | .resourceCreated .. | .resourceDeleted _ => rs

end ResourceState

/-- The part of an event that one resource applies: of a commit, the resource's own entries. -/
def Event.ownPart (own : Ulid) : Event → List Event
  | .holdsCommitted commits => (commits.filter (·.resourceId = own)).flatMap HoldCommit.events
  | other => [other]

namespace InMemoryStore

def empty : InMemoryStore := ⟨∅, ∅, ∅, ∅⟩

def resourceCount (s : InMemoryStore) : Nat := s.resources.keys.length

def containsResource (s : InMemoryStore) (id : Ulid) : Bool := (s.resources.lookup id).isSome

def getResource (s : InMemoryStore) (id : Ulid) : Option ResourceState := s.resources.lookup id

def resourceIds (s : InMemoryStore) : List Ulid := s.resources.keys

def insertResource (s : InMemoryStore) (id : Ulid) (state : ResourceState) : InMemoryStore :=
  { s with
    parents := match state.parentId with
      | some pid => s.parents.insert id pid
      | none => s.parents
    resources := s.resources.insert id state }

def removeResource (s : InMemoryStore) (id : Ulid) : InMemoryStore :=
  { s with parents := s.parents.erase id, resources := s.resources.erase id }

def getParent (s : InMemoryStore) (child : Ulid) : Option Ulid := s.parents.lookup child

/-- Drop the parent link of `child`. Only the sweep for orphans at startup does. -/
def detachParent (s : InMemoryStore) (child : Ulid) : InMemoryStore :=
  { s with parents := s.parents.erase child }

def getResourceForEntity (s : InMemoryStore) (entityId : Ulid) : Option Ulid :=
  s.entityToResource.lookup entityId

def mapEntity (s : InMemoryStore) (entityId resourceId : Ulid) : InMemoryStore :=
  { s with entityToResource := s.entityToResource.insert entityId resourceId }

def unmapEntity (s : InMemoryStore) (entityId : Ulid) : InMemoryStore :=
  { s with entityToResource := s.entityToResource.erase entityId }

/-- Unmap every entity among the intervals. -/
def unmapIntervals (s : InMemoryStore) (intervals : List Interval) : InMemoryStore :=
  intervals.foldl (fun s i => s.unmapEntity i.id) s

def getChildren (s : InMemoryStore) (parentId : Ulid) : List Ulid :=
  (s.children.lookup parentId).getD []

def addChild (s : InMemoryStore) (parentId childId : Ulid) : InMemoryStore :=
  { s with children := s.children.insert parentId (s.getChildren parentId ++ [childId]) }

def removeChild (s : InMemoryStore) (parentId childId : Ulid) : InMemoryStore :=
  match s.children.lookup parentId with
  | some kids => { s with children := s.children.insert parentId (kids.filter (· ≠ childId)) }
  | none => s

def hasChildren (s : InMemoryStore) (parentId : Ulid) : Bool := !(s.getChildren parentId).isEmpty

/-- The effect of a single-resource event on the entity index. -/
def indexSingle (s : InMemoryStore) : Event → InMemoryStore
  | .ruleAdded id rid _ _ | .ruleUpdated id rid _ _ | .holdPlaced id rid _ _
  | .bookingConfirmed id rid _ _ => s.mapEntity id rid
  | .ruleRemoved id _ | .holdReleased id _ | .bookingCancelled id _ => s.unmapEntity id
  | .resourceUpdated .. | .holdsCommitted _ | .resourceCreated .. | .resourceDeleted _ => s

/-- Apply an event to a resource whose guard the caller holds. -/
def applyEvent (s : InMemoryStore) (rs : ResourceState) (event : Event) : InMemoryStore × ResourceState :=
  ((event.ownPart rs.id).foldl indexSingle s, (event.ownPart rs.id).foldl ResourceState.applySingle rs)

/-- Apply an event to the resource of that id, if it exists: what replay does under its own
    locks, and what a writer does under the guard it holds. -/
def replayOn (s : InMemoryStore) (resourceId : Ulid) (event : Event) : InMemoryStore :=
  match s.getResource resourceId with
  | some rs =>
      let applied := s.applyEvent rs event
      { applied.1 with resources := s.resources.insert resourceId applied.2 }
  | none => s

end InMemoryStore

end Deltat
