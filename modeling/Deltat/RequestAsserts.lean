import Deltat.FreeRuns

/-! # The assertions of the requests

The requests that read or take time, with the assertions of every span they build and of every
64-bit result. An answer that carries a counter-offer asserts while it is put together.
-/

namespace Deltat

open Lib Limits

namespace Asserting

/-- Answer a check, or put its refusal together. -/
def orRefuse {α : Type} (check : Asserted EngineError α) (refusal : EngineError → Option Refused) : Asserted Refused α :=
  ExceptT.mk (check.run.bind fun outcome =>
    match outcome with
    | .ok a => some (.ok a)
    | .error error => (refusal error).map .error)

/-- A check whose refusal offers nothing. -/
def refusing {α : Type} (check : Asserted EngineError α) : Asserted Refused α :=
  orRefuse check fun error => some (.ofError error)

def validateSpan (span : Span) : Asserted EngineError Unit :=
  if span.start < minValidTimestampMs ∨ span.end > maxValidTimestampMs then throw (.limitExceeded "timestamp out of range")
  else do
    let width ← durationMs span
    if width > maxSpanDurationMs then throw (.limitExceeded "span too wide") else pure ()

/-! ## Reads -/

def inheritFrom (query : Span) (rules : InheritedRules) (parent : ResourceState) : Option InheritedRules := do
  let meeting := parent.overlapping query
  let nonBlocking ← if rules.ancestorHasSchedule then some []
    else (meeting.filter (·.kind = .nonBlocking)).mapM (clamp query)
  let blocking ← (meeting.filter (·.kind = .blocking)).mapM (clamp query)
  return ⟨rules.nonBlocking ++ nonBlocking, rules.blocking ++ blocking,
    rules.ancestorHasSchedule || parent.hasNonBlockingRule⟩

def inheritAlong (s : InMemoryStore) (query : Span) :
    List Ulid → InheritedRules → Asserted EngineError InheritedRules
  | [], rules => pure rules
  | pid :: chain, rules =>
      match s.getResource pid with
      | none => throw (.notFound pid)
      | some parent => do
          let rules ← inheritFrom query rules parent
          inheritAlong s query chain rules

def collectInheritedRules (s : InMemoryStore) (resourceId : Ulid) (parentId : Option Ulid) (query : Span) :
    Asserted EngineError InheritedRules := do
  let chain ← s.ancestorChain maxHierarchyDepth [resourceId] parentId
  let rules ← inheritAlong s query chain ⟨[], [], false⟩
  return { rules with
    nonBlocking := sortByStart rules.nonBlocking
    blocking := sortByStart rules.blocking }

/-- Keep the spans of a duration. -/
def longEnough (minDur : Ms) : List Span → Option (List Span)
  | [] => some []
  | span :: rest => do
      let width ← durationMs span
      let others ← longEnough minDur rest
      return if width ≥ minDur then span :: others else others

def computeAvailability (s : InMemoryStore) (now : Ms) (resourceId : Ulid) (queryStart queryEnd : Ms)
    (minDurationMs : Option Ms) : Asserted EngineError (List Span) :=
  let queryStart := max minValidTimestampMs (min maxValidTimestampMs queryStart)
  let queryEnd := max minValidTimestampMs (min maxValidTimestampMs queryEnd)
  if queryEnd ≤ queryStart then pure []
  else if satSub queryEnd queryStart > maxQueryWindowMs then throw (.limitExceeded "query window too wide")
  else
    match s.getResource resourceId with
    | none => pure []
    | some rs => do
        let query ← newSpan queryStart queryEnd
        let rules ← collectInheritedRules s resourceId (s.getParent resourceId) query
        let free ← availability rs query rules.nonBlocking rules.blocking now
        match minDurationMs with
        | some minDur => longEnough minDur free
        | none => pure free

/-! ## Admission -/

def checkRulesAdmit (rs : ResourceState) (span : Span) (inheritedNonBlocking inheritedBlocking : List Span)
    (ancestorHasSchedule : Bool) : Asserted EngineError Unit := do
  let own ← ownRuleSpans rs span
  let base :=
    if rs.hasNonBlockingRule then own.1
    else if ancestorHasSchedule then inheritedNonBlocking
    else [span]
  let opened := Availability.assembleOpenWindows base own.2 inheritedBlocking
  let closed := Availability.subtractIntervals [span] opened
  if closed.isEmpty then pure () else throw (.closedBySchedule span closed)

def collectActiveAllocsWithBuffer (rs : ResourceState) (query : Span) (now buffer : Ms) (exclude : Option Ulid) :
    Option (List Span) := do
  let footprints ← ((rs.overlapping query).filter fun i =>
    decide (some i.id ≠ exclude) && i.kind.live now).mapM fun i => buffered i.span buffer
  return sortByStart footprints

/-- The loop over the allocations of a single slot, up to the first that overlaps. -/
def firstConflict (buffer : Ms) (candidate : Span) : List Interval → Option (Option Interval)
  | [] => some none
  | i :: rest => do
      let effective ← buffered i.span buffer
      if effective.overlaps candidate then some (some i) else firstConflict buffer candidate rest

def checkNoConflictExcluding (rs : ResourceState) (span : Span) (now : Ms) (exclude : Option Ulid) :
    Asserted EngineError Unit := do
  let buffer := rs.buffer
  let candidate ← buffered span buffer
  let search ← newSpan (max (satSub span.start buffer) 0) (satAdd span.end buffer)
  if rs.capacity.toNat ≤ 1 then
    let found ← firstConflict buffer candidate ((rs.overlapping search).filter fun i =>
      decide (some i.id ≠ exclude) && i.kind.live now)
    match found with
    | some interval => throw (.conflict interval.id)
    | none => pure ()
  else
    let allocs ← collectActiveAllocsWithBuffer rs search now buffer exclude
    let saturated ← computeSaturatedSpans allocs rs.capacity.toNat
    if saturated.any (·.overlaps candidate) then throw (.capacityExceeded rs.capacity) else pure ()

def checkNoConflict (rs : ResourceState) (span : Span) (now : Ms) : Asserted EngineError Unit :=
  checkNoConflictExcluding rs span now none

def checkBatchCapacity (rs : ResourceState) (spans : List Span) (now : Ms) : Asserted EngineError Unit :=
  let buffer := rs.buffer
  match (spans.map (·.start)).min?, (spans.map fun s => satAdd s.end buffer).max? with
  | some lo, some hi => do
      let window ← newSpan (max (satSub lo buffer) 0) hi
      let active ← collectActiveAllocsWithBuffer rs window now buffer none
      let members ← (spans.mapM (buffered · buffer) : Option (List Span))
      let saturated ← computeSaturatedSpans (sortByStart (active ++ members)) (min (rs.capacity.toNat + 1) u32Max)
      if saturated.isEmpty then pure () else throw (.capacityExceeded rs.capacity)
  | _, _ => pure ()

/-! ## Counter-offers -/

/-- One offer per run of a duration, up to the limit. -/
def alternatives (width needed : Ms) : Nat → List Span → Option (List Span)
  | 0, _ | _, [] => some []
  | limit + 1, run :: rest => do
      let length ← durationMs run
      let stop := satAdd run.start width
      if length ≥ needed ∧ run.start < stop then
        let others ← alternatives width needed limit rest
        return ⟨run.start, stop⟩ :: others
      else alternatives width needed (limit + 1) rest

def rank (rs : ResourceState) (requested : Span) (inheritedNonBlocking inheritedBlocking : List Span)
    (ancestorHasSchedule : Bool) (now windowEnd : Ms) (limit : Nat) : Option CounterOffer :=
  let empty (unscheduled : Bool) : CounterOffer := ⟨requested, now, [], unscheduled⟩
  if limit = 0 then some (empty false)
  else if !rs.hasNonBlockingRule && !ancestorHasSchedule then some (empty true)
  else
    let last := min windowEnd maxValidTimestampMs
    if requested.start < last then do
      let width ← durationMs requested
      let needed := satAdd width rs.buffer
      let free ← availability rs ⟨requested.start, last⟩ inheritedNonBlocking inheritedBlocking now
      let alternatives ← alternatives width needed limit free
      return ⟨requested, now, alternatives, false⟩
    else some (empty false)

def refuse (error : EngineError) (rs : ResourceState) (span : Span) (inheritedNonBlocking inheritedBlocking : List Span)
    (ancestorHasSchedule : Bool) (now windowEnd : Ms) (offerLimit : Nat) : Option Refused :=
  if offerLimit = 0 ∨ ¬ error.isOfferable then some ⟨error, none⟩
  else do
    let offer ← rank rs span inheritedNonBlocking inheritedBlocking ancestorHasSchedule now windowEnd offerLimit
    return ⟨error, some offer⟩

/-! ## Requests -/

section Requests

variable (e : Engine)

def ruleContext (resourceId : Ulid) (span : Span) (offerLimit : Nat) : Asserted EngineError InheritedRules := do
  let _ ← e.resource resourceId
  collectInheritedRules e.store resourceId (e.store.getParent resourceId) (Offer.offerWindow span offerLimit)

def admitOne (id resourceId : Ulid) (span : Span) (rules : InheritedRules) (windowEnd : Ms) (offerLimit : Nat) :
    Asserted Refused Unit :=
  match e.store.getResource resourceId with
  | none => throw (.ofError (.notFound resourceId))
  | some guard =>
      match (do e.rejectReusedId id; Engine.checkIntervalLimit guard : Except EngineError Unit) with
      | .error error => throw (.ofError error)
      | .ok () =>
          orRefuse (do
              checkRulesAdmit guard span rules.nonBlocking rules.blocking rules.ancestorHasSchedule
              checkNoConflict guard span e.clock)
            fun error => refuse error guard span rules.nonBlocking rules.blocking rules.ancestorHasSchedule e.clock
              windowEnd offerLimit

def checkHold (id resourceId : Ulid) (span : Span) (requested : Ms) (offerLimit : Nat) : Asserted Refused Ms := do
  let (expiresAt, rules) ← refusing (do
    validateSpan span
    let expiresAt ← e.holdExpiry requested
    let rules ← ruleContext e resourceId span offerLimit
    return (expiresAt, rules))
  admitOne e id resourceId span rules (Offer.offerWindow span offerLimit).end offerLimit
  return expiresAt

def checkBooking (id resourceId : Ulid) (span : Span) (label : Option String) (offerLimit : Nat) :
    Asserted Refused Unit := do
  let rules ← refusing (do
    validateSpan span
    Conflict.validateLabel label
    ruleContext e resourceId span offerLimit)
  admitOne e id resourceId span rules (Offer.offerWindow span offerLimit).end offerLimit

/-- The members of a capacity-1 batch must not overlap, each weighed with its buffer. -/
def checkPairwise (buffer : Ms) : List (Ulid × Span) → Asserted EngineError Unit
  | [] => pure ()
  | (id, span) :: rest => do
      rest.forM fun other => do
        let effective ← buffered span buffer
        rejectIf (effective.overlaps other.2) (EngineError.conflict id)
        let effective ← buffered other.2 buffer
        rejectIf (effective.overlaps span) (EngineError.conflict other.1)
      checkPairwise buffer rest

def admitOn (guard : ResourceState) (rules : InheritedRules) (batch : List (Ulid × Span)) : Asserted EngineError Unit := do
  batch.forM fun member => do
    checkRulesAdmit guard member.2 rules.nonBlocking rules.blocking rules.ancestorHasSchedule
    checkNoConflict guard member.2 e.clock
  if batch.length > 1 then
    if guard.capacity.toNat ≤ 1 then checkPairwise guard.buffer batch
    else checkBatchCapacity guard (batch.map (·.2)) e.clock

def batchRules (members : List (Ulid × Ulid × Span)) (rid : Ulid) : Asserted EngineError InheritedRules :=
  let spans := (Engine.membersOn members rid).map (·.2)
  match (spans.map (·.start)).min?, (spans.map (·.end)).max? with
  | some lo, some hi => do
      let hull ← newSpan lo hi
      collectInheritedRules e.store rid (e.store.getParent rid) hull
  | _, _ => pure ⟨[], [], false⟩

def admitBatch (members : List (Ulid × Ulid × Span)) : Asserted EngineError Unit := do
  rejectIf (members.length > maxBatchSize) (EngineError.limitExceeded "batch too large")
  members.forM fun m => validateSpan m.2.2
  Conflict.rejectRepeats (members.map (·.1))
  let rids := Engine.ascending (members.map (·.2.1))
  let context ← rids.mapM (batchRules e members)
  let locked ← e.lockResources rids
  rejectIf (locked.any (·.intervals.length ≥ maxIntervalsPerResource))
    (EngineError.limitExceeded "too many intervals on resource")
  members.forM fun m => e.rejectReusedId m.1
  ((rids.zip locked).zip context).forM fun entry =>
    admitOn e entry.1.2 entry.2 (Engine.membersOn members entry.1.1)

def checkBookings (bookings : List (Ulid × Ulid × Span × Option String)) : Asserted EngineError Unit := do
  bookings.forM fun b => Conflict.validateLabel b.2.2.2
  admitBatch e (bookings.map fun b => (b.1, b.2.1, b.2.2.1))

/-- A batch of holds, each with its expiry clamped. -/
def checkHolds (holds : List (Ulid × Ulid × Span × Ms)) : Asserted EngineError Unit := do
  let holds ← e.holdExpiries holds
  admitBatch e (holds.map fun h => (h.1, h.2.1, h.2.2.1))

def admitCommit (offerLimit : Nat) (holdId bookingId : Ulid) (label : Option String) (rid : Ulid) :
    Asserted Refused HoldCommit :=
  match (do
      let guard ← e.resource rid
      let hold ← Engine.findIntervalOfKind guard holdId IntervalKind.isHold
      e.rejectReusedId bookingId
      return (guard, hold.span) : Except EngineError (ResourceState × Span)) with
  | .error error => throw (.ofError error)
  | .ok (guard, span) => do
      let canOffer := guard.parentId.isNone && guard.hasNonBlockingRule
      let limit := if canOffer then offerLimit else 0
      orRefuse (checkNoConflictExcluding guard span e.clock (some holdId))
        fun error => refuse error guard span [] [] false e.clock (Offer.offerWindow span limit).end limit
      return ⟨holdId, bookingId, rid, span, label⟩

def checkCommits (commits : List (Ulid × Ulid × Option String)) (offerLimit : Nat) :
    Asserted Refused (List Ulid × List HoldCommit) := do
  let resourceIds ← returns (Deltat.refusing (e.resolveCommits commits))
  let offerLimit := if commits.length = 1 then offerLimit else 0
  let entries ← (commits.zip resourceIds).mapM fun c => admitCommit e offerLimit c.1.1 c.1.2.1 c.1.2.2 c.2
  return (resourceIds, entries)

end Requests

end Asserting

end Deltat
