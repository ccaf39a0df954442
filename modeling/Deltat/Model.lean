import Mathlib.Data.List.AList
import Deltat.Lib.BinarySearch

/-! # Value types and limits

The vocabulary of the engine, the log and the readers: spans on a line of milliseconds,
intervals (rules, holds and bookings are all intervals), the state of one resource, and
the events that the log records.
-/

namespace Deltat

open Lib

/-- Unix milliseconds. -/
abbrev Ms := Int

/-- A 128-bit identifier, ordered by its value. -/
abbrev Ulid := Fin (2 ^ 128)

/-- So that a literal is an id. -/
instance Ulid.instNeZero : NeZero (2 ^ 128) := ⟨by decide⟩

/-- A concurrent map used by one operation at a time. -/
abbrev DashMap (κ ν : Type) := AList (fun _ : κ => ν)

namespace Limits

def i64Min : Ms := -2 ^ 63
def i64Max : Ms := 2 ^ 63 - 1
def u32Max : Nat := 2 ^ 32 - 1

def maxQueryWindowMs : Ms := 90 * 86400000
def maxSpanDurationMs : Ms := 3650 * 86400000
def minValidTimestampMs : Ms := 0
def maxValidTimestampMs : Ms := 32503680000000
def defaultMaxHoldTtlMs : Ms := 3600000
def counterOfferWindowMs : Ms := 7 * 86400000
def maxBatchSize : Nat := 1000
def maxIntervalsPerResource : Nat := 100000
def maxResourcesPerTenant : Nat := 100000
def maxHierarchyDepth : Nat := 50
def maxNameLen : Nat := 1000
def maxLabelLen : Nat := 10000

end Limits

/-- Addition that stops at the ends of the 64-bit range. -/
def satAdd (a b : Ms) : Ms := max Limits.i64Min (min Limits.i64Max (a + b))

/-- Subtraction that stops at the ends of the 64-bit range. -/
def satSub (a b : Ms) : Ms := max Limits.i64Min (min Limits.i64Max (a - b))

/-- Half-open interval `[start, end)`. -/
structure Span where
  start : Ms
  «end» : Ms
  deriving DecidableEq

namespace Span

/-- What `Span::new` asserts of every span built by the engine. Decoding a log record
    bypasses it. -/
def Valid (s : Span) : Prop := s.start < s.end

instance : DecidablePred Valid := fun s => inferInstanceAs (Decidable (s.start < s.end))

def durationMs (s : Span) : Ms := s.end - s.start

def overlaps (s other : Span) : Bool := s.start < other.end && other.start < s.end

def containsInstant (s : Span) (t : Ms) : Bool := s.start ≤ t && t < s.end

/-- The span with its turnaround buffer behind it. -/
def buffered (s : Span) (buffer : Ms) : Span := ⟨s.start, satAdd s.end buffer⟩

end Span

/-- What an interval represents. -/
inductive IntervalKind where
  /-- Opens availability for this time range. -/
  | nonBlocking
  /-- Closes availability for this time range. -/
  | blocking
  /-- Temporary reservation with expiration. -/
  | hold (expiresAt : Ms)
  /-- Permanent reservation with optional label. -/
  | booking (label : Option String)
  deriving DecidableEq

namespace IntervalKind

def isRule : IntervalKind → Bool
  | nonBlocking | blocking => true
  | _ => false

def isHold : IntervalKind → Bool
  | hold _ => true
  | _ => false

def isBooking : IntervalKind → Bool
  | booking _ => true
  | _ => false

/-- The rule kind an event's `blocking` flag stands for. -/
def ofBlocking (flag : Bool) : IntervalKind := if flag then blocking else nonBlocking

/-- A booking, or a hold that has not expired: the allocations a conflict check counts. -/
def live (now : Ms) : IntervalKind → Bool
  | hold expiresAt => !(decide (expiresAt ≤ now))
  | booking _ => true
  | _ => false

end IntervalKind

/-- A single interval on a resource: rules, holds, and bookings are all just intervals. -/
structure Interval where
  id : Ulid
  span : Span
  kind : IntervalKind
  deriving DecidableEq

structure ResourceState where
  id : Ulid
  parentId : Option Ulid
  name : Option String
  /-- Max concurrent allocations. -/
  capacity : UInt32
  /-- Buffer time in ms after each allocation ends. -/
  bufferAfter : Option Ms
  /-- All intervals, sorted by `span.start`. -/
  intervals : List Interval
  deriving DecidableEq

namespace ResourceState

def new (id : Ulid) (parentId : Option Ulid) (name : Option String) (capacity : UInt32)
    (bufferAfter : Option Ms) : ResourceState :=
  ⟨id, parentId, name, capacity, bufferAfter, []⟩

/-- Insert interval maintaining sort order by `span.start`. -/
def insertInterval (rs : ResourceState) (interval : Interval) : ResourceState :=
  let pos := BinarySearch.position
    (BinarySearch.searchBy (fun i => compare i.span.start interval.span.start) rs.intervals)
  { rs with intervals := BinarySearch.insertAt rs.intervals pos interval }

/-- Remove the first interval with the id. -/
def removeInterval (rs : ResourceState) (id : Ulid) : ResourceState :=
  { rs with intervals := rs.intervals.eraseP (·.id = id) }

/-- Whether this resource defines its own schedule anywhere on its timeline. -/
def hasNonBlockingRule (rs : ResourceState) : Bool :=
  rs.intervals.any (·.kind = .nonBlocking)

/-- The intervals that meet the query window: a binary search cuts off those starting at
    or after its end. -/
def overlapping (rs : ResourceState) (query : Span) : List Interval :=
  let rightBound := BinarySearch.partitionPoint (fun i => decide (i.span.start < query.end)) rs.intervals
  (rs.intervals.take rightBound).filter (fun i => decide (i.span.end > query.start))

/-- The buffer as a duration. -/
def buffer (rs : ResourceState) : Ms := rs.bufferAfter.getD 0

end ResourceState

/-- One hold becoming a booking on the hold's resource and span. -/
structure HoldCommit where
  holdId : Ulid
  bookingId : Ulid
  resourceId : Ulid
  span : Span
  label : Option String
  deriving DecidableEq

/-- The record format of the log, in the order that numbers the variants on disk. -/
inductive Event where
  | resourceCreated (id : Ulid) (parentId : Option Ulid) (name : Option String)
      (capacity : UInt32) (bufferAfter : Option Ms)
  /-- A partial update: `none` leaves a field unchanged, the inner option of a nullable
      field is the value to set. -/
  | resourceUpdated (id : Ulid) (name : Option (Option String)) (capacity : Option UInt32)
      (bufferAfter : Option (Option Ms))
  | resourceDeleted (id : Ulid)
  | ruleAdded (id resourceId : Ulid) (span : Span) (blocking : Bool)
  | ruleUpdated (id resourceId : Ulid) (span : Span) (blocking : Bool)
  | ruleRemoved (id resourceId : Ulid)
  | holdPlaced (id resourceId : Ulid) (span : Span) (expiresAt : Ms)
  | holdReleased (id resourceId : Ulid)
  | bookingConfirmed (id resourceId : Ulid) (span : Span) (label : Option String)
  | bookingCancelled (id resourceId : Ulid)
  /-- Holds turned into bookings, possibly across several resources, as one record. -/
  | holdsCommitted (commits : List HoldCommit)
  deriving DecidableEq

/-- The two single-resource events an entry stands for, in the order they take effect. -/
def HoldCommit.events (c : HoldCommit) : List Event :=
  [.holdReleased c.holdId c.resourceId,
   .bookingConfirmed c.bookingId c.resourceId c.span c.label]

namespace Event

/-- Whether every span this event carries is a valid half-open interval. -/
def spansValid : Event → Bool
  | ruleAdded _ _ span _ | ruleUpdated _ _ span _ | holdPlaced _ _ span _
  | bookingConfirmed _ _ span _ => span.start < span.end
  | holdsCommitted commits => commits.all fun c => c.span.start < c.span.end
  | _ => true

/-- This event as single-resource events. -/
def perResource : Event → List Event
  | holdsCommitted commits => commits.flatMap HoldCommit.events
  | other => [other]

/-- The one resource an event applies to. None for create and delete, which replay handles
    itself, and for `holdsCommitted`, which has several. -/
def resourceId? : Event → Option Ulid
  | ruleAdded _ rid _ _ | ruleUpdated _ rid _ _ | ruleRemoved _ rid | holdPlaced _ rid _ _
  | holdReleased _ rid | bookingConfirmed _ rid _ _ | bookingCancelled _ rid => some rid
  | resourceUpdated id _ _ _ => some id
  | resourceCreated .. | resourceDeleted _ | holdsCommitted _ => none

/-- The id an event introduces. Every other kind mutates or removes existing state. -/
def addedId : Event → Option Ulid
  | resourceCreated id _ _ _ _ | ruleAdded id _ _ _ | holdPlaced id _ _ _
  | bookingConfirmed id _ _ _ => some id
  | _ => none

end Event

/-- The errors of the engine's read and write paths. -/
inductive EngineError where
  | notFound (id : Ulid)
  | alreadyExists (id : Ulid)
  | conflict (id : Ulid)
  | notCoveredByParent (ruleSpan : Span) (uncovered : List Span)
  /-- The candidate span leaves the effective open windows. -/
  | closedBySchedule (span : Span) (closed : List Span)
  | cycleDetected (id : Ulid)
  | hasChildren (id : Ulid)
  | capacityExceeded (capacity : UInt32)
  | limitExceeded (what : String)
  | walError (what : String)
  deriving DecidableEq

/-- Whether the refusal means "not this span", the case where alternatives help. -/
def EngineError.isOfferable : EngineError → Bool
  | conflict _ | capacityExceeded _ | closedBySchedule _ _ => true
  | _ => false

end Deltat
