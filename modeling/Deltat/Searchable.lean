import Deltat.Exactness
import Deltat.Runs

/-! # Intervals stay searchable

Whatever is applied to a resource, and whatever garbage collection drops, its intervals stay in
the order of their starts. Only on a sorted list is the binary search of a lookup right, and there
it finds the intervals that meet the query. An insertion may land anywhere among the intervals
with the same start: which of them the search answers with does not matter.
-/

namespace Deltat

open Lib Limits

namespace ResourceState

/-- One change, where an insertion lands at any index that keeps the order. -/
inductive Changes (ev : Event) (rs : ResourceState) : ResourceState → Prop where
  | adds {i : Interval} {index : Nat} (added : ev.adds = some i)
      (lands : BinarySearch.Separates (fun j => compare j.span.start i.span.start) (rs.take ev.removes).intervals index) :
      Changes ev rs (ev.setFields { rs.take ev.removes with
        intervals := BinarySearch.insertAt (rs.take ev.removes).intervals index i })
  | addsNothing (added : ev.adds = none) : Changes ev rs (ev.setFields (rs.take ev.removes))

/-- The changes of an event one after another. -/
inductive Applies : List Event → ResourceState → ResourceState → Prop where
  | nil {rs : ResourceState} : Applies [] rs rs
  | cons {ev : Event} {changes : List Event} {rs rs' rs'' : ResourceState} (first : Changes ev rs rs')
      (later : Applies changes rs' rs'') : Applies (ev :: changes) rs rs''

/-- The states that events and garbage collection lead to. -/
inductive Kept (start : ResourceState) : ResourceState → Prop where
  | start : Kept start start
  | applyEvent {rs rs' : ResourceState} (kept : Kept start rs) (event : Event) (applies : Applies (event.ownPart rs.id) rs rs') :
      Kept start rs'
  | gcPastIntervals {rs : ResourceState} (kept : Kept start rs) (now retentionMs : Ms) :
      Kept start (rs.collected now (satSub now retentionMs))

variable {start rs rs' : ResourceState} {ev : Event}

/-- In the order of their starts. -/
def Sorted (rs : ResourceState) : Prop := rs.intervals.Pairwise fun a b => a.span.start ≤ b.span.start

theorem Sorted.taken (sorted : rs.Sorted) (x : Option Ulid) : (rs.take x).Sorted := by
  cases x with
  | none => exact sorted
  | some x => exact sorted.sublist List.eraseP_sublist

theorem Sorted.changes (sorted : rs.Sorted) (changes : Changes ev rs rs') : rs'.Sorted := by
  cases changes with
  | adds added lands =>
      unfold Sorted
      rw [setFields_intervals]
      exact lands.insertAt_sorted (sorted.taken ev.removes)
  | addsNothing added =>
      unfold Sorted
      rw [setFields_intervals]
      exact sorted.taken ev.removes

theorem Sorted.applies {changes : List Event} (sorted : rs.Sorted) (applies : Applies changes rs rs') : rs'.Sorted := by
  induction applies with
  | nil => exact sorted
  | cons first _ ih => exact ih (sorted.changes first)

theorem Kept.sorted (empty : start.intervals = []) (kept : Kept start rs) : rs.Sorted := by
  induction kept with
  | start =>
      unfold Sorted
      rw [empty]
      exact .nil
  | applyEvent _ _ applies sorted => exact sorted.applies applies
  | gcPastIntervals _ _ _ sorted => exact sorted.sublist List.filter_sublist

/-- The search that an insertion makes is one of those that keep the order. -/
theorem Sorted.applySingle_changes (sorted : rs.Sorted) (ev : Event) : Changes ev rs (rs.applySingle ev) := by
  rw [applySingle_eq]
  cases added : ev.adds with
  | none => exact .addsNothing added
  | some i => exact .adds added (BinarySearch.searchBy_lands i (sorted.taken ev.removes))

theorem Sorted.foldl_applies (changes : List Event) (sorted : rs.Sorted) :
    Applies changes rs (changes.foldl ResourceState.applySingle rs) := by
  induction changes generalizing rs with
  | nil => exact .nil
  | cons ev rest ih =>
      have changed := sorted.applySingle_changes ev
      exact .cons changed (ih (sorted.changes changed))

/-- Applying an event leads from such a state to another. -/
theorem Kept.applied (empty : start.intervals = []) (kept : Kept start rs) (s : InMemoryStore) (event : Event) :
    Kept start (s.applyEvent rs event).2 := kept.applyEvent event ((kept.sorted empty).foldl_applies _)

/-- Two intervals begin together, a rule moves in front of them, a hold becomes a booking, and
    garbage collection drops the first booking. -/
def busy : List Event :=
  [.ruleAdded 2 1 ⟨10, 20⟩ false, .bookingConfirmed 3 1 ⟨10, 15⟩ none, .holdPlaced 4 1 ⟨30, 40⟩ 100,
    .ruleUpdated 2 1 ⟨5, 50⟩ false, .holdsCommitted [⟨4, 5, 1, ⟨30, 40⟩, none⟩]]

end ResourceState

end Deltat
