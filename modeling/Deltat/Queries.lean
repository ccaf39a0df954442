import Deltat.Conflict
import Deltat.Store

/-! # The read path

A read walks a resource's ancestors to gather inherited rules, then hands the assembled
timeline to the availability algorithm. Nothing here changes state.
-/

namespace Deltat

open Limits

/-- Rules collected from the ancestors: non-blocking and blocking spans clamped to the
    query, and whether any ancestor defines a schedule. -/
structure InheritedRules where
  nonBlocking : List Span
  blocking : List Span
  ancestorHasSchedule : Bool
  deriving DecidableEq

namespace InMemoryStore

/-- The chain of ancestors, nearest first, read from the parent index. The first argument
    is how many more ancestors the depth limit allows. -/
def ancestorChain (s : InMemoryStore) : Nat → List Ulid → Option Ulid → Except EngineError (List Ulid)
  | _, _, none => .ok []
  | 0, _, some _ => .error (.limitExceeded "hierarchy too deep")
  | fuel + 1, visited, some pid =>
      if pid ∈ visited then .error (.cycleDetected pid)
      else do
        let rest ← s.ancestorChain fuel (pid :: visited) (s.getParent pid)
        return pid :: rest

theorem ancestorChain_none (s : InMemoryStore) (fuel : Nat) (visited : List Ulid) :
    s.ancestorChain fuel visited none = .ok [] := by
  cases fuel <;> rfl

theorem ancestorChain_some (s : InMemoryStore) (fuel : Nat) (visited : List Ulid) (pid : Ulid) :
    s.ancestorChain (fuel + 1) visited (some pid) =
      if pid ∈ visited then .error (.cycleDetected pid)
      else do
        let rest ← s.ancestorChain fuel (pid :: visited) (s.getParent pid)
        return pid :: rest :=
  rfl

/-- One ancestor's contribution: its non-blocking rules count only while no nearer ancestor
    defines a schedule, its blocking rules always do. -/
def inheritFrom (query : Span) (rules : InheritedRules) (parent : ResourceState) : InheritedRules :=
  let clamp (i : Interval) : Span := ⟨max i.span.start query.start, min i.span.end query.end⟩
  let meeting := parent.overlapping query
  { nonBlocking :=
      if rules.ancestorHasSchedule then rules.nonBlocking
      else rules.nonBlocking ++ (meeting.filter (·.kind = .nonBlocking)).map clamp
    blocking := rules.blocking ++ (meeting.filter (·.kind = .blocking)).map clamp
    ancestorHasSchedule := rules.ancestorHasSchedule || parent.hasNonBlockingRule }

def inheritAlong (s : InMemoryStore) (query : Span) : List Ulid → InheritedRules → Except EngineError InheritedRules
  | [], rules => .ok rules
  | pid :: chain, rules =>
      match s.getResource pid with
      | none => .error (.notFound pid)
      | some parent => s.inheritAlong query chain (inheritFrom query rules parent)

/-- Walk up from a resource collecting inherited rules from ancestors. -/
def collectInheritedRules (s : InMemoryStore) (resourceId : Ulid) (parentId : Option Ulid) (query : Span) :
    Except EngineError InheritedRules := do
  let chain ← s.ancestorChain maxHierarchyDepth [resourceId] parentId
  let rules ← s.inheritAlong query chain ⟨[], [], false⟩
  return { rules with
    nonBlocking := sortByStart rules.nonBlocking
    blocking := sortByStart rules.blocking }

def computeAvailability (s : InMemoryStore) (now : Ms) (resourceId : Ulid) (queryStart queryEnd : Ms)
    (minDurationMs : Option Ms) : Except EngineError (List Span) :=
  let queryStart := max minValidTimestampMs (min maxValidTimestampMs queryStart)
  let queryEnd := max minValidTimestampMs (min maxValidTimestampMs queryEnd)
  if queryEnd ≤ queryStart then .ok []
  else if satSub queryEnd queryStart > maxQueryWindowMs then .error (.limitExceeded "query window too wide")
  else
    match s.getResource resourceId with
    | none => .ok []
    | some rs => do
        let query : Span := ⟨queryStart, queryEnd⟩
        let rules ← s.collectInheritedRules resourceId (s.getParent resourceId) query
        let free := Availability.availability rs query rules.nonBlocking rules.blocking now
        return match minDurationMs with
          | some minDur => free.filter fun span => decide (span.durationMs ≥ minDur)
          | none => free

end InMemoryStore

end Deltat
