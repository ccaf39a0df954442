import Deltat.Mutations

/-! # The assertions of the read and admission paths

`Span::new` asserts that its span is proper, and arithmetic is checked: a 64-bit result that
does not fit, or a sweep counter that leaves its 32 bits, panics. These are the same functions
with their assertions. `none` is a panic; the pieces that subtraction and the sweep build are
proper by the condition they are built under, so those two cannot panic at a span.
-/

namespace Deltat

open Lib Limits

/-- A check that may panic. -/
abbrev Asserted (ε : Type) := ExceptT ε Option

/-- A check that returns. -/
def returns {ε α : Type} (outcome : Except ε α) : Asserted ε α := ExceptT.mk (some outcome)

instance {ε : Type} : MonadLift (Except ε) (Asserted ε) := ⟨returns⟩

namespace Asserting

/-- `Span::new`. -/
def newSpan (start «end» : Ms) : Option Span := if start < «end» then some ⟨start, «end»⟩ else none

/-- A 64-bit subtraction. -/
def subtract (a b : Ms) : Option Ms := if i64Min ≤ a - b ∧ a - b ≤ i64Max then some (a - b) else none

def durationMs (s : Span) : Option Ms := subtract s.end s.start

def buffered (s : Span) (buffer : Ms) : Option Span := newSpan s.start (satAdd s.end buffer)

def clamp (query : Span) (i : Interval) : Option Span :=
  newSpan (max i.span.start query.start) (min i.span.end query.end)

/-! ## Availability -/

def ownRuleSpans (resource : ResourceState) (query : Span) : Option (List Span × List Span) := do
  let rules := resource.overlapping query
  let nonBlocking ← (rules.filter (·.kind = .nonBlocking)).mapM (clamp query)
  let blocking ← (rules.filter (·.kind = .blocking)).mapM (clamp query)
  return (nonBlocking, blocking)

/-- The sweep's counter is an unsigned 32-bit number. -/
def computeSaturatedSpans (allocs : List Span) (capacity : Nat) : Option (List Span) :=
  if capacity ≤ 1 then some (Availability.computeSaturatedSpans allocs capacity)
  else
    let points := Sweep.endpoints (allocs.map fun a => (a.start, a.end))
    if Sweep.counted u32Max (points.insertionSort Sweep.Before) 0 then
      some (Availability.computeSaturatedSpans allocs capacity)
    else none

/-- The last step of a read: the footprints taken out of the open windows. -/
def subtractActive (free active : List Span) (capacity : Nat) : Option (List Span) :=
  if active.isEmpty then some free
  else if capacity ≤ 1 then some (Availability.subtractIntervals free (sortByStart active))
  else do
    let saturated ← computeSaturatedSpans (sortByStart active) capacity
    return if saturated.isEmpty then free else Availability.subtractIntervals free saturated

def availability (resource : ResourceState) (query : Span) (inheritedNonBlocking inheritedBlocking : List Span)
    (now : Ms) : Option (List Span) := do
  let buffer := resource.buffer
  let own ← ownRuleSpans resource query
  let base := if resource.hasNonBlockingRule then own.1 else inheritedNonBlocking
  let free := Availability.assembleOpenWindows base own.2 inheritedBlocking
  let scan ← newSpan (max (satSub query.start buffer) 0) query.end
  let active ← ((resource.overlapping scan).filter fun i =>
      i.kind.live now && decide (satAdd i.span.end buffer > query.start)).mapM fun i => buffered i.span buffer
  subtractActive free active resource.capacity.toNat

end Asserting

end Deltat
