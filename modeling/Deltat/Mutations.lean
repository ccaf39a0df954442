import Deltat.Offer
import Deltat.Queries

/-! # The write path

Create, delete, add and remove rules, place holds, and book. Every operation first checks
under the guards it takes, then queues its records to the log and changes memory. One
operation runs at a time here; interleavings are the subject of later modules.
-/

namespace Deltat

open Limits Conflict

/-- The engine between operations. -/
structure Engine where
  store : InMemoryStore
  /-- The reading of the injected clock. -/
  clock : Ms
  /-- A lower bound on the earliest live hold's expiry, for the reaper. -/
  earliestHoldExpiry : Ms
  /-- Bumped by every placement of holds. -/
  holdGeneration : Nat
  /-- Ceiling on hold lifetime. -/
  maxHoldTtlMs : Ms
  /-- Set by the log writer when a flush fails; later writes are refused. -/
  failed : Bool
  /-- The error that the next flush meets, if the environment makes it fail. -/
  flushFault : Option String
  /-- The records of the log, in order. -/
  log : List Event

/-- One engine operation: the outcome and the engine it leaves. -/
abbrev EngineM := ExceptT EngineError (StateM Engine)

/-- An operation whose refusal may carry a counter-offer. -/
abbrev OfferM := ExceptT Refused (StateM Engine)

/-- Refuse when the condition holds. -/
def rejectIf (p : Prop) [Decidable p] (error : EngineError) : Except EngineError Unit :=
  if p then .error error else .ok ()

/-- A check whose refusal offers nothing. -/
def refusing {α} (c : Except EngineError α) : Except Refused α := c.mapError Refused.ofError

namespace EngineM

def toOffer {α} (x : EngineM α) : OfferM α := ExceptT.adapt Refused.ofError x

def ofOffer {α} (x : OfferM α) : EngineM α := ExceptT.adapt Refused.error x

instance : MonadLift EngineM OfferM := ⟨toOffer⟩

end EngineM

/-- What a delete takes out of the indexes before its record is written. -/
def InMemoryStore.unlink (s : InMemoryStore) (rs : ResourceState) (id : Ulid) : InMemoryStore :=
  let s := s.unmapIntervals rs.intervals
  match rs.parentId with
  | some pid => s.removeChild pid id
  | none => s

namespace Engine

/-- A fresh engine on an empty log. -/
def start (clock maxHoldTtlMs : Ms) : Engine where
  store := .empty
  clock := clock
  earliestHoldExpiry := i64Min
  holdGeneration := 0
  maxHoldTtlMs := maxHoldTtlMs
  failed := false
  flushFault := none
  log := []

/-- Map the keys of a sorted map or set: each id once, in ascending order. -/
def ascending (ids : List Ulid) : List Ulid := ids.dedup.insertionSort (· ≤ ·)

section Checks

variable (e : Engine)

def resource (id : Ulid) : Except EngineError ResourceState :=
  match e.store.getResource id with
  | some rs => .ok rs
  | none => .error (.notFound id)

/-- An entity id is claimed exactly once, across every resource. -/
def rejectReusedId (id : Ulid) : Except EngineError Unit :=
  match e.store.getResourceForEntity id with
  | some _ => .error (.alreadyExists id)
  | none => .ok ()

/-- The interval `id`, whose kind must match the operation. -/
def findIntervalOfKind (guard : ResourceState) (id : Ulid) (isKind : IntervalKind → Bool) :
    Except EngineError Interval :=
  match guard.intervals.find? (·.id = id) with
  | some i => if isKind i.kind then .ok i else .error (.notFound id)
  | none => .error (.notFound id)

/-- Lookup entity, then its resource. -/
def resolveEntity (entityId : Ulid) : Except EngineError (Ulid × ResourceState) :=
  match e.store.getResourceForEntity entityId with
  | none => .error (.notFound entityId)
  | some rid => do
      let rs ← e.resource rid
      return (rid, rs)

def holdExpiry (requested : Ms) : Except EngineError Ms := do
  validateTimestamp requested
  return min requested (satAdd e.clock e.maxHoldTtlMs)

def holdExpiries (holds : List (Ulid × Ulid × Span × Ms)) :
    Except EngineError (List (Ulid × Ulid × Span × Ms)) :=
  holds.mapM fun h => do
    let expiresAt ← e.holdExpiry h.2.2.2
    return (h.1, h.2.1, h.2.2.1, expiresAt)

def checkIntervalLimit (guard : ResourceState) : Except EngineError Unit :=
  if guard.intervals.length ≥ maxIntervalsPerResource then
    .error (.limitExceeded "too many intervals on resource")
  else .ok ()

/-- A non-blocking rule must lie within the parent's availability. -/
def checkParentCoverage (parentId : Ulid) (span : Span) : Except EngineError Unit := do
  let parentFree ← e.store.computeAvailability e.clock parentId span.start span.end none
  let uncovered := Availability.subtractIntervals [span] parentFree
  rejectIf (!uncovered.isEmpty) (.notCoveredByParent span uncovered)

/-- The coverage check a rule write makes when it opens time under a parent. -/
def checkRuleCoverage (resourceId : Ulid) (span : Span) (blocking : Bool) : Except EngineError Unit :=
  if blocking then .ok ()
  else
    match e.store.getParent resourceId with
    | some parentId => e.checkParentCoverage parentId span
    | none => .ok ()

def checkAddRule (id resourceId : Ulid) (span : Span) (blocking : Bool) : Except EngineError Unit := do
  validateSpan span
  let guard ← e.resource resourceId
  e.checkRuleCoverage resourceId span blocking
  e.rejectReusedId id
  checkIntervalLimit guard

/-- The resource of the rule to update. -/
def checkUpdateRule (id : Ulid) (span : Span) (blocking : Bool) : Except EngineError Ulid := do
  validateSpan span
  match e.store.getResourceForEntity id with
  | none => throw (.notFound id)
  | some resourceId => do
      e.checkRuleCoverage resourceId span blocking
      let guard ← e.resource resourceId
      let _ ← findIntervalOfKind guard id IntervalKind.isRule
      return resourceId

/-- The resource of an entity to remove, whose kind must match the operation. -/
def checkRemoval (id : Ulid) (isKind : IntervalKind → Bool) : Except EngineError Ulid := do
  let (resourceId, guard) ← e.resolveEntity id
  let _ ← findIntervalOfKind guard id isKind
  return resourceId

/-- Count the ancestors of a new resource against the depth limit. -/
def checkDepth (store : InMemoryStore) : Nat → Option Ulid → Except EngineError Unit
  | _, none => .ok ()
  | 0, some _ => .error (.limitExceeded "hierarchy too deep")
  | fuel + 1, some cid => checkDepth store fuel (store.getParent cid)

def checkNewParent (id : Ulid) : Option Ulid → Except EngineError Unit
  | none => .ok ()
  | some pid =>
      if pid = id then .error (.cycleDetected id)
      else if !e.store.containsResource pid then .error (.notFound pid)
      else checkDepth e.store maxHierarchyDepth (some pid)

def checkCreate (id : Ulid) (parentId : Option Ulid) (name : Option String) (capacity : UInt32)
    (bufferAfter : Option Ms) : Except EngineError Unit := do
  rejectIf (e.store.resourceCount ≥ maxResourcesPerTenant) (.limitExceeded "too many resources")
  validateCapacity capacity
  validateBuffer bufferAfter
  validateName name
  rejectIf (e.store.containsResource id) (.alreadyExists id)
  e.checkNewParent id parentId

def checkDelete (id : Ulid) : Except EngineError ResourceState := do
  rejectIf (!e.store.containsResource id) (.notFound id)
  rejectIf (e.store.hasChildren id) (.hasChildren id)
  e.resource id

/-- Only the fields an update mentions are validated. -/
def checkUpdate (name : Option (Option String)) (capacity : Option UInt32)
    (bufferAfter : Option (Option Ms)) : Except EngineError Unit := do
  capacity.forM validateCapacity
  bufferAfter.forM validateBuffer
  name.forM validateName

/-- Every resource of a multi-resource write, locked once in ascending order. -/
def lockResources (resourceIds : List Ulid) : Except EngineError (List ResourceState) :=
  (ascending resourceIds).mapM e.resource

/-- The members of a capacity-1 batch must not overlap, each weighed with its buffer. -/
def checkPairwise (buffer : Ms) : List (Ulid × Span) → Except EngineError Unit
  | [] => .ok ()
  | (id, span) :: rest => do
      rest.forM fun other => do
        rejectIf ((span.buffered buffer).overlaps other.2) (.conflict id)
        rejectIf ((other.2.buffered buffer).overlaps span) (.conflict other.1)
      checkPairwise buffer rest

/-- All members of a batch on one resource, against its state and against each other. -/
def admitOn (guard : ResourceState) (rules : InheritedRules) (batch : List (Ulid × Span)) :
    Except EngineError Unit := do
  batch.forM fun member => do
    checkRulesAdmit guard member.2 rules.nonBlocking rules.blocking rules.ancestorHasSchedule
    checkNoConflict guard member.2 e.clock
  if batch.length > 1 then
    if guard.capacity.toNat ≤ 1 then checkPairwise guard.buffer batch
    else checkBatchCapacity guard (batch.map (·.2)) e.clock

/-- The members of a batch that fall on one resource, in batch order. -/
def membersOn (members : List (Ulid × Ulid × Span)) (rid : Ulid) : List (Ulid × Span) :=
  (members.filter (·.2.1 = rid)).map fun m => (m.1, m.2.2)

/-- The rule context of a batch on one resource, over the hull of its member spans. -/
def batchRules (members : List (Ulid × Ulid × Span)) (rid : Ulid) : Except EngineError InheritedRules :=
  let spans := (membersOn members rid).map (·.2)
  match (spans.map (·.start)).min?, (spans.map (·.end)).max? with
  | some lo, some hi => e.store.collectInheritedRules rid (e.store.getParent rid) ⟨lo, hi⟩
  | _, _ => .ok ⟨[], [], false⟩

/-- Admit a batch of new allocations `(id, resource_id, span)`, all or nothing. -/
def admitBatch (members : List (Ulid × Ulid × Span)) : Except EngineError Unit := do
  rejectIf (members.length > maxBatchSize) (.limitExceeded "batch too large")
  members.forM fun m => validateSpan m.2.2
  rejectRepeats (members.map (·.1))
  let rids := ascending (members.map (·.2.1))
  let context ← rids.mapM (e.batchRules members)
  let locked ← e.lockResources rids
  rejectIf (locked.any (·.intervals.length ≥ maxIntervalsPerResource))
    (.limitExceeded "too many intervals on resource")
  members.forM fun m => e.rejectReusedId m.1
  ((rids.zip locked).zip context).forM fun entry =>
    e.admitOn entry.1.2 entry.2 (membersOn members entry.1.1)

/-- The checks of a single new allocation, with what its refusal would offer. -/
def admitOne (id resourceId : Ulid) (span : Span) (rules : InheritedRules) (windowEnd : Ms)
    (offerLimit : Nat) : Except Refused Unit :=
  match e.store.getResource resourceId with
  | none => .error (.ofError (.notFound resourceId))
  | some guard =>
      match (do e.rejectReusedId id; checkIntervalLimit guard : Except EngineError Unit) with
      | .error error => .error (.ofError error)
      | .ok () =>
          match (do
            checkRulesAdmit guard span rules.nonBlocking rules.blocking rules.ancestorHasSchedule
            checkNoConflict guard span e.clock : Except EngineError Unit) with
          | .error error => .error (Offer.refuse error guard span rules.nonBlocking rules.blocking
              rules.ancestorHasSchedule e.clock windowEnd offerLimit)
          | .ok () => .ok ()

/-- The rule context of a single allocation, over the window its refusal could offer from. -/
def ruleContext (resourceId : Ulid) (span : Span) (offerLimit : Nat) : Except EngineError InheritedRules := do
  let _ ← e.resource resourceId
  e.store.collectInheritedRules resourceId (e.store.getParent resourceId) (Offer.offerWindow span offerLimit)

/-- The expiry an admitted hold gets. -/
def checkHold (id resourceId : Ulid) (span : Span) (requested : Ms) (offerLimit : Nat) :
    Except Refused Ms := do
  let (expiresAt, rules) ← refusing (do
    validateSpan span
    let expiresAt ← e.holdExpiry requested
    let rules ← e.ruleContext resourceId span offerLimit
    return (expiresAt, rules))
  e.admitOne id resourceId span rules (Offer.offerWindow span offerLimit).end offerLimit
  return expiresAt

def checkBooking (id resourceId : Ulid) (span : Span) (label : Option String) (offerLimit : Nat) :
    Except Refused Unit := do
  let rules ← refusing (do
    validateSpan span
    validateLabel label
    e.ruleContext resourceId span offerLimit)
  e.admitOne id resourceId span rules (Offer.offerWindow span offerLimit).end offerLimit

def checkBookings (bookings : List (Ulid × Ulid × Span × Option String)) : Except EngineError Unit := do
  bookings.forM fun b => validateLabel b.2.2.2
  e.admitBatch (bookings.map fun b => (b.1, b.2.1, b.2.2.1))

/-- The check of one entry of a commit: its hold is excluded from its own conflict check. -/
def admitCommit (offerLimit : Nat) (holdId bookingId : Ulid) (label : Option String) (rid : Ulid) :
    Except Refused HoldCommit :=
  match (do
      let guard ← e.resource rid
      let hold ← findIntervalOfKind guard holdId IntervalKind.isHold
      e.rejectReusedId bookingId
      return (guard, hold.span) : Except EngineError (ResourceState × Span)) with
  | .error error => .error (.ofError error)
  | .ok (guard, span) =>
      match checkNoConflictExcluding guard span e.clock (some holdId) with
      | .error error =>
          let canOffer := guard.parentId.isNone && guard.hasNonBlockingRule
          let limit := if canOffer then offerLimit else 0
          .error (Offer.refuse error guard span [] [] false e.clock (Offer.offerWindow span limit).end limit)
      | .ok () => .ok ⟨holdId, bookingId, rid, span, label⟩

/-- The checks a commit makes before it takes any lock, down to the resource of each hold. -/
def resolveCommits (commits : List (Ulid × Ulid × Option String)) : Except EngineError (List Ulid) := do
  rejectIf (commits.length > maxBatchSize) (.limitExceeded "batch too large")
  commits.forM fun c => validateLabel c.2.2
  rejectRepeats (commits.map (·.1))
  rejectRepeats (commits.map (·.2.1))
  let resourceIds ← commits.mapM fun c =>
    match e.store.getResourceForEntity c.1 with
    | some rid => .ok rid
    | none => .error (.notFound c.1)
  let _ ← e.lockResources resourceIds
  return resourceIds

/-- The entries of a commit, every one admitted against the state before the commit. -/
def admitCommits (commits : List (Ulid × Ulid × Option String)) (resourceIds : List Ulid)
    (offerLimit : Nat) : Except Refused (List HoldCommit) :=
  let offerLimit := if commits.length = 1 then offerLimit else 0
  (commits.zip resourceIds).mapM fun c => e.admitCommit offerLimit c.1.1 c.1.2.1 c.1.2.2 c.2

/-- The resource of each entry of an admitted commit, and the entries of its record. -/
def checkCommits (commits : List (Ulid × Ulid × Option String)) (offerLimit : Nat) :
    Except Refused (List Ulid × List HoldCommit) := do
  let resourceIds ← refusing (e.resolveCommits commits)
  let entries ← e.admitCommits commits resourceIds offerLimit
  return (resourceIds, entries)

end Checks

section Effects

/-- Hand records to the log writer. The outcome of their flush arrives later. -/
def queue (records : List Event) : EngineM (Except EngineError Unit) := do
  let e ← get
  if e.failed then
    throw (.walError "this tenant stopped after a failed WAL flush; it is rebuilt from its log on next use")
  match e.flushFault with
  | none =>
      set { e with log := e.log ++ records }
      return .ok ()
  | some what =>
      set { e with failed := true, flushFault := none }
      return .error (.walError what)

def modifyStore (f : InMemoryStore → InMemoryStore) : EngineM Unit :=
  modify fun e => { e with store := f e.store }

/-- Write one event and wait until it is durable. -/
def walAppend (event : Event) : EngineM Unit := do
  let outcome ← queue [event]
  liftExcept outcome

/-- Persist, then apply, an event that can free time or reshape a resource. -/
def persistAndApply (resourceId : Ulid) (event : Event) : EngineM Unit := do
  walAppend event
  modifyStore (·.replayOn resourceId event)

/-- The changes that one locked resource applies. -/
def applyChanges (changes : List Event) (s : InMemoryStore) (resourceId : Ulid) : InMemoryStore :=
  (changes.filter (·.resourceId? = some resourceId)).foldl (·.replayOn resourceId ·) s

/-- Queue, apply, then wait: for writes that only ever take time away. -/
def persistEarly (locked : List Ulid) (records : List Event) : EngineM Unit := do
  let changes := records.flatMap Event.perResource
  let outcome ← queue records
  modifyStore fun s => locked.foldl (applyChanges changes) s
  liftExcept outcome

/-- Lower the reaper's watermark and mark that a placement ran. -/
def watchHoldExpiry (expiresAt : Ms) : EngineM Unit :=
  modify fun e => { e with
    earliestHoldExpiry := min e.earliestHoldExpiry expiresAt
    holdGeneration := e.holdGeneration + 1 }

end Effects

section Operations

def createResource (id : Ulid) (parentId : Option Ulid) (name : Option String) (capacity : UInt32)
    (bufferAfter : Option Ms) : EngineM Unit := do
  (← get).checkCreate id parentId name capacity bufferAfter
  walAppend (.resourceCreated id parentId name capacity bufferAfter)
  modifyStore (·.insertResource id (.new id parentId name capacity bufferAfter))
  match parentId with
  | some pid => modifyStore (·.addChild pid id)
  | none => pure ()

def batchCreateResources
    (resources : List (Ulid × Option Ulid × Option String × UInt32 × Option Ms)) : EngineM Unit := do
  rejectIf (resources.length > maxBatchSize) (.limitExceeded "batch too large")
  resources.forM fun r => createResource r.1 r.2.1 r.2.2.1 r.2.2.2.1 r.2.2.2.2

def deleteResource (id : Ulid) : EngineM Unit := do
  let rs ← (← get).checkDelete id
  modifyStore (·.unlink rs id)
  walAppend (.resourceDeleted id)
  modifyStore (·.removeResource id)

def updateResource (id : Ulid) (name : Option (Option String)) (capacity : Option UInt32)
    (bufferAfter : Option (Option Ms)) : EngineM Unit := do
  checkUpdate name capacity bufferAfter
  let _ ← (← get).resource id
  persistAndApply id (.resourceUpdated id name capacity bufferAfter)

def addRule (id resourceId : Ulid) (span : Span) (blocking : Bool) : EngineM Unit := do
  (← get).checkAddRule id resourceId span blocking
  persistAndApply resourceId (.ruleAdded id resourceId span blocking)

def batchAddRules (rules : List (Ulid × Ulid × Span × Bool)) : EngineM Unit := do
  rejectIf (rules.length > maxBatchSize) (.limitExceeded "batch too large")
  rules.forM fun r => addRule r.1 r.2.1 r.2.2.1 r.2.2.2

def updateRule (id : Ulid) (span : Span) (blocking : Bool) : EngineM Unit := do
  let resourceId ← (← get).checkUpdateRule id span blocking
  persistAndApply resourceId (.ruleUpdated id resourceId span blocking)

def removeRule (id : Ulid) : EngineM Unit := do
  let resourceId ← (← get).checkRemoval id IntervalKind.isRule
  persistAndApply resourceId (.ruleRemoved id resourceId)

def placeHoldOffering (id resourceId : Ulid) (span : Span) (expiresAt : Ms) (offerLimit : Nat) :
    OfferM Unit := do
  let expiresAt ← (← get).checkHold id resourceId span expiresAt offerLimit
  watchHoldExpiry expiresAt
  persistEarly [resourceId] [.holdPlaced id resourceId span expiresAt]

def placeHold (id resourceId : Ulid) (span : Span) (expiresAt : Ms) : EngineM Unit :=
  .ofOffer (placeHoldOffering id resourceId span expiresAt 0)

/-- Remove a hold, for a release and for an expiry alike. -/
def removeHold (id : Ulid) : EngineM Unit := do
  let resourceId ← (← get).checkRemoval id IntervalKind.isHold
  persistAndApply resourceId (.holdReleased id resourceId)

def releaseHold (id : Ulid) : EngineM Unit := removeHold id

def expireHold (id : Ulid) : EngineM Unit := removeHold id

/-- Turn holds `(hold_id, booking_id, label)` into bookings, as one record. -/
def commitHoldsOffering (commits : List (Ulid × Ulid × Option String)) (offerLimit : Nat) :
    OfferM Unit := do
  if commits.isEmpty then return ()
  let (resourceIds, entries) ← (← get).checkCommits commits offerLimit
  persistEarly (ascending resourceIds) [.holdsCommitted entries]

def commitHolds (commits : List (Ulid × Ulid × Option String)) : EngineM Unit :=
  .ofOffer (commitHoldsOffering commits 0)

def commitHold (holdId bookingId : Ulid) (label : Option String) : EngineM Unit :=
  commitHolds [(holdId, bookingId, label)]

def confirmBookingOffering (id resourceId : Ulid) (span : Span) (label : Option String)
    (offerLimit : Nat) : OfferM Unit := do
  (← get).checkBooking id resourceId span label offerLimit
  persistEarly [resourceId] [.bookingConfirmed id resourceId span label]

def confirmBooking (id resourceId : Ulid) (span : Span) (label : Option String) : EngineM Unit :=
  .ofOffer (confirmBookingOffering id resourceId span label 0)

/-- Atomically book multiple slots, on any resources. -/
def batchConfirmBookings (bookings : List (Ulid × Ulid × Span × Option String)) : EngineM Unit := do
  if bookings.isEmpty then return ()
  (← get).checkBookings bookings
  persistEarly (ascending (bookings.map (·.2.1)))
    (bookings.map fun b => .bookingConfirmed b.1 b.2.1 b.2.2.1 b.2.2.2)

/-- Place several holds at once, all or nothing. -/
def batchPlaceHolds (holds : List (Ulid × Ulid × Span × Ms)) : EngineM Unit := do
  let holds ← (← get).holdExpiries holds
  match (holds.map (·.2.2.2)).min? with
  | none => return ()
  | some earliest =>
      (← get).admitBatch (holds.map fun h => (h.1, h.2.1, h.2.2.1))
      watchHoldExpiry earliest
      persistEarly (ascending (holds.map (·.2.1)))
        (holds.map fun h => .holdPlaced h.1 h.2.1 h.2.2.1 h.2.2.2)

def cancelBooking (id : Ulid) : EngineM Unit := do
  let resourceId ← (← get).checkRemoval id IntervalKind.isBooking
  persistAndApply resourceId (.bookingCancelled id resourceId)

/-- Whether garbage collection drops the interval: a booking whose buffered end is past the
    cutoff, or such a hold that has also expired. Rules stay. -/
def dominated (now cutoff buffer : Ms) (i : Interval) : Bool :=
  match i.kind with
  | .booking _ => decide (satAdd i.span.end buffer < cutoff)
  | .hold expiresAt => decide (expiresAt ≤ now) && decide (satAdd i.span.end buffer < cutoff)
  | .nonBlocking | .blocking => false

/-- Collect one resource: drop its dominated intervals and unmap their ids. -/
def gcResource (now cutoff : Ms) (s : InMemoryStore) (rid : Ulid) : InMemoryStore :=
  match s.getResource rid with
  | none => s
  | some rs =>
      let (removed, kept) := rs.intervals.partition (dominated now cutoff rs.buffer)
      { s.unmapIntervals removed with resources := s.resources.insert rid { rs with intervals := kept } }

/-- Remove past bookings and expired holds. Memory only: no record is written. -/
def gcPastIntervals (e : Engine) (now retentionMs : Ms) : Engine :=
  let cutoff := satSub now retentionMs
  { e with store := e.store.resourceIds.foldl (gcResource now cutoff) e.store }

end Operations

end Engine

end Deltat
