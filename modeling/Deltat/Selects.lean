import Deltat.Queries
import Deltat.Sql

/-! # The reads behind a SELECT

What the engine answers to each command. A read over several resources reads each of them once,
in the order in which they are first named.
-/

namespace Deltat

open Lib Limits Availability

structure ResourceInfo where
  id : Ulid
  parentId : Option Ulid
  name : Option String
  capacity : UInt32
  bufferAfter : Option Ms
  deriving DecidableEq

structure RuleInfo where
  id : Ulid
  resourceId : Ulid
  start : Ms
  stop : Ms
  blocking : Bool
  deriving DecidableEq

structure BookingInfo where
  id : Ulid
  resourceId : Ulid
  start : Ms
  stop : Ms
  label : Option String
  deriving DecidableEq

structure HoldInfo where
  id : Ulid
  resourceId : Ulid
  start : Ms
  stop : Ms
  expiresAt : Ms
  deriving DecidableEq

namespace Interval

def rule (resourceId : Ulid) (i : Interval) : Option RuleInfo :=
  match i.kind with
  | .nonBlocking => some ⟨i.id, resourceId, i.span.start, i.span.end, false⟩
  | .blocking => some ⟨i.id, resourceId, i.span.start, i.span.end, true⟩
  | _ => none

def booking (resourceId : Ulid) (i : Interval) : Option BookingInfo :=
  match i.kind with
  | .booking label => some ⟨i.id, resourceId, i.span.start, i.span.end, label⟩
  | _ => none

def hold (resourceId : Ulid) (i : Interval) : Option HoldInfo :=
  match i.kind with
  | .hold expiresAt => some ⟨i.id, resourceId, i.span.start, i.span.end, expiresAt⟩
  | _ => none

end Interval

namespace InMemoryStore

variable (s : InMemoryStore)

def resourceInfo (id : Ulid) : Option ResourceInfo :=
  (s.getResource id).map fun rs => ⟨rs.id, rs.parentId, rs.name, rs.capacity, rs.bufferAfter⟩

def listResources : List ResourceInfo := s.resourceIds.filterMap s.resourceInfo

def getRules (resourceId : Ulid) : Except EngineError (List RuleInfo) :=
  match s.getResource resourceId with
  | none => .ok []
  | some rs => .ok (rs.intervals.filterMap (Interval.rule resourceId))

/-- The intervals of a resource that pass the comparisons, as rows of one kind. -/
def getRows {α : Type} (row : Ulid → Interval → Option α) (resourceId : Ulid) (filters : List SpanFilter) :
    Except EngineError (List α) :=
  match s.getResource resourceId with
  | none => .ok []
  | some rs => .ok ((rs.intervals.filter fun i => spanFiltersMatch filters i.span.start i.span.end).filterMap
      (row resourceId))

def getBookings : Ulid → List SpanFilter → Except EngineError (List BookingInfo) := s.getRows Interval.booking

def getHolds : Ulid → List SpanFilter → Except EngineError (List HoldInfo) := s.getRows Interval.hold

/-- Read one resource after the other, but none of those seen. -/
def readEach {α : Type} (read : Ulid → Except EngineError (List α)) : List Ulid → List Ulid → Except EngineError (List α)
  | _, [] => .ok []
  | seen, rid :: rest =>
      if seen.contains rid then readEach read seen rest
      else do
        let rows ← read rid
        let others ← readEach read (rid :: seen) rest
        return rows ++ others

/-- Read several resources, up to a limit. -/
def readMulti {α : Type} (read : Ulid → Except EngineError (List α)) (resourceIds : List Ulid) :
    Except EngineError (List α) :=
  if resourceIds.length > maxInClauseIds then .error (.limitExceeded "too many resource IDs")
  else readEach read [] resourceIds

def getBookingsMulti (resourceIds : List Ulid) (filters : List SpanFilter) : Except EngineError (List BookingInfo) :=
  readMulti (s.getBookings · filters) resourceIds

def getHoldsMulti (resourceIds : List Ulid) (filters : List SpanFilter) : Except EngineError (List HoldInfo) :=
  readMulti (s.getHolds · filters) resourceIds

def getAvailabilityMulti (now : Ms) (resourceIds : List Ulid) (queryStart queryEnd : Ms) (minDurationMs : Option Ms) :
    Except EngineError (List (Ulid × Span)) :=
  readMulti (fun rid => do
    let free ← s.computeAvailability now rid queryStart queryEnd minDurationMs
    return free.map (rid, ·)) resourceIds

/-- The runs during which at least `threshold` of the spans are open. -/
def sweepSegments (threshold : Nat) (spans : List Span) : List Span :=
  let points := Sweep.endpoints (spans.map fun a => (a.start, a.end))
  (Sweep.saturated threshold (points.insertionSort Sweep.Before) 0 none).map fun s => ⟨s.1, s.2⟩

/-- When enough of several resources are free at once. A resource listed twice counts twice. -/
def computeMultiAvailability (now : Ms) (resourceIds : List Ulid) (queryStart queryEnd : Ms) (minAvailable : Nat)
    (minDurationMs : Option Ms) : Except EngineError (List Span) :=
  if queryEnd ≤ queryStart then .ok []
  else if satSub queryEnd queryStart > maxQueryWindowMs then .error (.limitExceeded "query window too wide")
  else if resourceIds.length > maxInClauseIds then .error (.limitExceeded "too many resource IDs")
  else if resourceIds.isEmpty ∨ minAvailable = 0 ∨ minAvailable > resourceIds.length then .ok []
  else do
    let spans ← resourceIds.mapM (s.computeAvailability now · queryStart queryEnd none)
    -- A window that one resource hands over to another is one window, so merge before filtering.
    let merged := mergeOverlapping (sweepSegments minAvailable spans.flatten)
    return match minDurationMs with
      | some d => merged.filter fun span => decide (span.durationMs ≥ d)
      | none => merged

end InMemoryStore

/-- The rows of an answer. -/
inductive Answer where
  | resources (rows : List ResourceInfo)
  | rules (rows : List RuleInfo)
  | bookings (rows : List BookingInfo)
  | holds (rows : List HoldInfo)
  | availability (rows : List (Ulid × Span))
  | merged (rows : List Span)
  deriving DecidableEq

/-- What a command answers. -/
def Command.execute (s : InMemoryStore) (now : Ms) : Command → Except EngineError Answer
  | .selectResources filter =>
      match filter with
      | .id id => .ok (.resources (s.resourceInfo id).toList)
      | .all => .ok (.resources s.listResources)
      | .roots => .ok (.resources (s.listResources.filter (·.parentId = none)))
      | .childrenOf pid => .ok (.resources (s.listResources.filter (·.parentId = some pid)))
  | .selectRules resourceId => (s.getRules resourceId).map .rules
  | .selectBookings resourceId filters => (s.getBookings resourceId filters).map .bookings
  | .selectBookingsMulti resourceIds filters => (s.getBookingsMulti resourceIds filters).map .bookings
  | .selectHolds resourceId filters => (s.getHolds resourceId filters).map .holds
  | .selectHoldsMulti resourceIds filters => (s.getHoldsMulti resourceIds filters).map .holds
  | .selectAvailability resourceId start stop minDuration =>
      (s.computeAvailability now resourceId start stop minDuration).map fun free => .availability (free.map (resourceId, ·))
  | .selectAvailabilityMulti resourceIds start stop minDuration =>
      (s.getAvailabilityMulti now resourceIds start stop minDuration).map .availability
  | .selectMultiAvailability resourceIds start stop minAvailable minDuration =>
      (s.computeMultiAvailability now resourceIds start stop minAvailable minDuration).map .merged

end Deltat
