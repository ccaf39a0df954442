import Deltat.Conflict

/-! # Counter-offers

The spans a refused caller could take instead, computed from the state that just refused.
Nothing here reserves anything.
-/

namespace Deltat

open Limits

/-- Spans the caller could take instead of the one that was refused. -/
structure CounterOffer where
  requested : Span
  asOf : Ms
  alternatives : List Span
  /-- The resource publishes no opening hours, so there are no windows to enumerate. -/
  unscheduled : Bool
  deriving DecidableEq

/-- An engine refusal, plus whatever could be offered instead. -/
structure Refused where
  error : EngineError
  offer : Option CounterOffer
  deriving DecidableEq

def Refused.ofError (error : EngineError) : Refused := ⟨error, none⟩

namespace Offer

/-- The rule-collection window for a write that may need to offer alternatives. -/
def offerWindow (span : Span) (offerLimit : Nat) : Span :=
  if offerLimit = 0 then span
  else
    let last := min (max span.end (satAdd span.start counterOfferWindowMs)) maxValidTimestampMs
    if span.start < last then ⟨span.start, last⟩ else span

/-- Rank the spans a refused caller could take instead: one per free run long enough for
    the request and its turnaround. -/
def rank (rs : ResourceState) (requested : Span) (inheritedNonBlocking inheritedBlocking : List Span)
    (ancestorHasSchedule : Bool) (now windowEnd : Ms) (limit : Nat) : CounterOffer :=
  let empty (unscheduled : Bool) : CounterOffer := ⟨requested, now, [], unscheduled⟩
  if limit = 0 then empty false
  else if !rs.hasNonBlockingRule && !ancestorHasSchedule then empty true
  else
    let last := min windowEnd maxValidTimestampMs
    if requested.start < last then
      let window : Span := ⟨requested.start, last⟩
      let needed := satAdd requested.durationMs rs.buffer
      let free := Availability.availability rs window inheritedNonBlocking inheritedBlocking now
      let alternatives := ((free.filter fun run => decide (run.durationMs ≥ needed)).filterMap fun run =>
        let stop := satAdd run.start requested.durationMs
        if run.start < stop then some (⟨run.start, stop⟩ : Span) else none).take limit
      ⟨requested, now, alternatives, false⟩
    else empty false

/-- Build the refusal, computing alternatives from the state that refused. -/
def refuse (error : EngineError) (rs : ResourceState) (span : Span)
    (inheritedNonBlocking inheritedBlocking : List Span) (ancestorHasSchedule : Bool)
    (now windowEnd : Ms) (offerLimit : Nat) : Refused :=
  if offerLimit = 0 ∨ ¬ error.isOfferable then ⟨error, none⟩
  else ⟨error, some (rank rs span inheritedNonBlocking inheritedBlocking ancestorHasSchedule now
    windowEnd offerLimit)⟩

end Offer

end Deltat
