import Deltat.Availability

/-! # Span validation and conflict detection

Bounds a span and its buffer so that later arithmetic cannot overflow, and decides whether
a new allocation would push any instant past capacity.
-/

namespace Deltat

namespace Conflict

open Limits Availability

def validateSpan (span : Span) : Except EngineError Unit :=
  if span.start < minValidTimestampMs ∨ span.end > maxValidTimestampMs then
    .error (.limitExceeded "timestamp out of range")
  else if span.durationMs > maxSpanDurationMs then .error (.limitExceeded "span too wide")
  else .ok ()

/-- A turnaround buffer is a bounded, non-negative duration. -/
def validateBuffer : Option Ms → Except EngineError Unit
  | some b =>
      if ¬ (0 ≤ b ∧ b ≤ maxSpanDurationMs) then .error (.limitExceeded "buffer_after out of range")
      else .ok ()
  | none => .ok ()

def validateCapacity (capacity : UInt32) : Except EngineError Unit :=
  if capacity = 0 then .error (.limitExceeded "capacity must be at least 1") else .ok ()

def validateTimestamp (ts : Ms) : Except EngineError Unit :=
  if ¬ (minValidTimestampMs ≤ ts ∧ ts ≤ maxValidTimestampMs) then
    .error (.limitExceeded "timestamp out of range")
  else .ok ()

def validateLabel : Option String → Except EngineError Unit
  | some label => if label.utf8ByteSize > maxLabelLen then .error (.limitExceeded "label too long") else .ok ()
  | none => .ok ()

def validateName : Option String → Except EngineError Unit
  | some name =>
      if name.utf8ByteSize > maxNameLen then .error (.limitExceeded "resource name too long") else .ok ()
  | none => .ok ()

/-- The first id that an earlier member of the batch already carries. -/
def firstRepeat (seen : List Ulid) : List Ulid → Option Ulid
  | [] => none
  | id :: rest => if id ∈ seen then some id else firstRepeat (id :: seen) rest

/-- Two members of one batch sharing an id. -/
def rejectRepeats (ids : List Ulid) : Except EngineError Unit :=
  match firstRepeat [] ids with
  | some id => .error (.alreadyExists id)
  | none => .ok ()

/-- The candidate's raw span must lie inside the effective open windows. A chain that
    defines no schedule anywhere constrains nothing but its blocking rules. -/
def checkRulesAdmit (rs : ResourceState) (span : Span)
    (inheritedNonBlocking inheritedBlocking : List Span) (ancestorHasSchedule : Bool) :
    Except EngineError Unit :=
  let own := ownRuleSpans rs span
  let base :=
    if rs.hasNonBlockingRule then own.1
    else if ancestorHasSchedule then inheritedNonBlocking
    else [span]
  let opened := assembleOpenWindows base own.2 inheritedBlocking
  let closed := subtractIntervals [span] opened
  if closed.isEmpty then .ok () else .error (.closedBySchedule span closed)

/-- Live allocation spans that meet the query, extended by the buffer and sorted. -/
def collectActiveAllocsWithBuffer (rs : ResourceState) (query : Span) (now buffer : Ms)
    (exclude : Option Ulid) : List Span :=
  sortByStart (((rs.overlapping query).filter fun i =>
    decide (some i.id ≠ exclude) && i.kind.live now).map fun i => i.span.buffered buffer)

/-- Conflict check that ignores one allocation by id: a hold being converted into a booking
    on the same span must not conflict with itself. -/
def checkNoConflictExcluding (rs : ResourceState) (span : Span) (now : Ms) (exclude : Option Ulid) :
    Except EngineError Unit :=
  let buffer := rs.buffer
  let candidate := span.buffered buffer
  let search : Span := ⟨max (satSub span.start buffer) 0, satAdd span.end buffer⟩
  if rs.capacity.toNat ≤ 1 then
    match (rs.overlapping search).find? fun i =>
      decide (some i.id ≠ exclude) && i.kind.live now && (i.span.buffered buffer).overlaps candidate with
    | some interval => .error (.conflict interval.id)
    | none => .ok ()
  else
    let allocs := collectActiveAllocsWithBuffer rs search now buffer exclude
    let saturated := computeSaturatedSpans allocs rs.capacity.toNat
    if saturated.any (·.overlaps candidate) then .error (.capacityExceeded rs.capacity) else .ok ()

def checkNoConflict (rs : ResourceState) (span : Span) (now : Ms) : Except EngineError Unit :=
  checkNoConflictExcluding rs span now none

/-- Committing `spans` all at once must not push the concurrent allocation count past the
    capacity anywhere: the members are weighed against each other as well. -/
def checkBatchCapacity (rs : ResourceState) (spans : List Span) (now : Ms) : Except EngineError Unit :=
  let buffer := rs.buffer
  match (spans.map (·.start)).min?, (spans.map fun s => satAdd s.end buffer).max? with
  | some lo, some hi =>
      let window : Span := ⟨max (satSub lo buffer) 0, hi⟩
      let allocs := collectActiveAllocsWithBuffer rs window now buffer none ++
        spans.map (·.buffered buffer)
      -- The capacity saturates at the largest 32-bit value instead of overflowing.
      let threshold := min (rs.capacity.toNat + 1) u32Max
      if (computeSaturatedSpans (sortByStart allocs) threshold).isEmpty then .ok ()
      else .error (.capacityExceeded rs.capacity)
  | _, _ => .ok ()

end Conflict

end Deltat
