import Deltat.Lib.Sweep
import Deltat.Model

/-! # The availability algorithm

Blocking rules and live allocations subtract from a resource's open windows, and a sweep
over interval endpoints finds the runs in which the allocations reach the capacity. The
rule half is shared with admission.
-/

namespace Deltat

open Lib

/-- Some span of the list contains the instant. -/
def Covers (spans : List Span) (t : Ms) : Prop := ∃ s ∈ spans, s.start ≤ t ∧ t < s.end

/-- A stable sort by start. -/
def sortByStart (spans : List Span) : List Span :=
  spans.insertionSort fun a b => a.start ≤ b.start

namespace Availability

/-- Extend `last` by the spans that overlap or touch it, then go on after the gap. -/
def mergeFrom (last : Span) : List Span → List Span
  | [] => [last]
  | span :: rest =>
      if span.start ≤ last.end then mergeFrom ⟨last.start, max last.end span.end⟩ rest
      else last :: mergeFrom span rest

/-- Merge sorted overlapping or adjacent intervals into disjoint intervals. -/
def mergeOverlapping : List Span → List Span
  | [] => []
  | span :: rest => mergeFrom span rest

/-- What `toRemove` leaves of one base span, from `currentStart` on. -/
def carve (currentStart currentEnd : Ms) : List Span → List Span
  | [] => if currentStart < currentEnd then [⟨currentStart, currentEnd⟩] else []
  | r :: rest =>
      if r.start < currentEnd then
        let left := if r.start > currentStart then [⟨currentStart, r.start⟩] else []
        left ++ carve (max currentStart r.end) currentEnd rest
      else if currentStart < currentEnd then [⟨currentStart, currentEnd⟩] else []

/-- The base spans without what `toRemove` covers. Removals that end before a base span
    are skipped for it and for all later ones. -/
def subtractIntervals : List Span → List Span → List Span
  | [], _ => []
  | b :: base, toRemove =>
      let rest := toRemove.dropWhile fun r => decide (r.end ≤ b.start)
      carve b.start b.end rest ++ subtractIntervals base rest

/-- The time ranges in which at least `capacity` allocations are open. -/
def computeSaturatedSpans (allocs : List Span) (capacity : Nat) : List Span :=
  if allocs.isEmpty || capacity == 0 then []
  else if capacity == 1 then mergeOverlapping allocs
  else
    let points := Sweep.endpoints (allocs.map fun a => (a.start, a.end))
    (Sweep.saturated capacity (points.insertionSort Sweep.Before) 0 none).map fun s => ⟨s.1, s.2⟩

/-- The resource's own non-blocking and blocking rule spans that meet `query`, clamped to it. -/
def ownRuleSpans (resource : ResourceState) (query : Span) : List Span × List Span :=
  let clamp (i : Interval) : Span := ⟨max i.span.start query.start, min i.span.end query.end⟩
  let rules := resource.overlapping query
  ((rules.filter (·.kind = .nonBlocking)).map clamp, (rules.filter (·.kind = .blocking)).map clamp)

/-- Sort and merge the base schedule, then subtract every blocking window. -/
def assembleOpenWindows (base ownBlocking inheritedBlocking : List Span) : List Span :=
  let opened := mergeOverlapping (sortByStart base)
  let blocked := sortByStart (ownBlocking ++ inheritedBlocking)
  if blocked.isEmpty then opened else subtractIntervals opened blocked

/-- The free intervals of a resource inside `query`. Its own non-blocking rules override
    the inherited ones; blocking rules accumulate. -/
def availability (resource : ResourceState) (query : Span)
    (inheritedNonBlocking inheritedBlocking : List Span) (now : Ms) : List Span :=
  let buffer := resource.buffer
  let own := ownRuleSpans resource query
  let base := if resource.hasNonBlockingRule then own.1 else inheritedNonBlocking
  let free := assembleOpenWindows base own.2 inheritedBlocking
  -- An allocation that ends just before the query can still block its head, so the scan
  -- starts one buffer earlier.
  let scan : Span := ⟨max (satSub query.start buffer) 0, query.end⟩
  let active := ((resource.overlapping scan).filter fun i =>
      i.kind.live now && decide (satAdd i.span.end buffer > query.start)).map
    fun i => i.span.buffered buffer
  if active.isEmpty then free
  else
    let active := sortByStart active
    if resource.capacity.toNat ≤ 1 then subtractIntervals free active
    else
      let saturated := computeSaturatedSpans active resource.capacity.toNat
      if saturated.isEmpty then free else subtractIntervals free saturated

end Availability

end Deltat
