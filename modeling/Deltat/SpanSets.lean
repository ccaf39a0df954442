import Deltat.SpanLoops

/-! # What the loops compute

Read as sets of instants, subtracting spans is set difference, and the sweep finds the instants at
which the capacity is used up. Both results are proper spans in order that share no instant.
-/

namespace Deltat

open Lib Limits Availability

/-- Proper spans in ascending order, none of which begins before the one before it has ended. -/
structure Successive (spans : List Span) : Prop where
  proper : ∀ s ∈ spans, s.start < s.end
  apart : spans.Pairwise fun a b => a.end ≤ b.start

namespace Successive

variable {spans others : List Span}

theorem nil : Successive [] := ⟨List.forall_mem_nil _, .nil⟩

theorem append (first : Successive spans) (second : Successive others)
    (between : ∀ a ∈ spans, ∀ b ∈ others, a.end ≤ b.start) : Successive (spans ++ others) where
  proper s inside := (List.mem_append.mp inside).elim (first.proper s) (second.proper s)
  apart := List.pairwise_append.mpr ⟨first.apart, second.apart, between⟩

theorem ordered (successive : Successive spans) : Ordered spans := by
  apply successive.apart.imp_of_mem
  intro a b inside _ after
  exact (successive.proper a inside).le.trans after

end Successive

/-- Spans with gaps between them are successive. -/
theorem Separate.successive {spans : List Span} (separate : Separate spans) : Successive spans :=
  ⟨separate.proper, separate.gaps.imp le_of_lt⟩

/-! ## Difference -/

/-- Base spans may touch, and then so may what is left of them. -/
theorem subtractIntervals_successive {base toRemove : List Span} (successive : Successive base)
    (proper : ∀ r ∈ toRemove, r.start < r.end) : Successive (subtractIntervals base toRemove) := by
  induction base generalizing toRemove with
  | nil => exact .nil
  | cons b base ih =>
      obtain ⟨ahead, behind⟩ := List.pairwise_cons.mp successive.apart
      have left : ∀ r ∈ toRemove.dropWhile fun r => decide (r.end ≤ b.start), r.start < r.end := fun r inside =>
        proper r ((List.dropWhile_sublist _).subset inside)
      have rest : Successive base := ⟨fun s inside => successive.proper s (List.mem_cons_of_mem _ inside), behind⟩
      apply (carve_separate left).successive.append (ih rest left)
      intro s first s' other
      obtain ⟨_, b', inside, after⟩ := subtractIntervals_within s' other
      calc s.end
        _ ≤ b.end := (carve_within s first).2.2
        _ ≤ b'.start := ahead b' inside
        _ ≤ s'.start := after

/-- Subtracting is set difference, whatever the removals have in common: the loop does not panic,
    and leaves successive spans that cover the instants of the base that no removal covers. -/
theorem subtractIntervals_difference {base toRemove : List Span} (successive : Successive base) (sorted : Ordered toRemove)
    (proper : ∀ r ∈ toRemove, r.start < r.end) :
    Loops.subtractIntervals base toRemove = some (subtractIntervals base toRemove) ∧
      Successive (subtractIntervals base toRemove) ∧
      ∀ t, Covers (subtractIntervals base toRemove) t ↔ Covers base t ∧ ¬ Covers toRemove t :=
  ⟨Loops.subtractIntervals_returns base toRemove, subtractIntervals_successive successive proper,
    subtractIntervals_covers successive.ordered sorted⟩

/-- A long removal, two short ones inside it, and a base span that begins before it has ended. -/
theorem nested_removals : Loops.subtractIntervals [⟨0, 40⟩, ⟨40, 100⟩] [⟨10, 60⟩, ⟨20, 25⟩, ⟨30, 50⟩, ⟨70, 80⟩] =
    some [⟨0, 10⟩, ⟨60, 70⟩, ⟨80, 100⟩] := by
  have successive : Successive [⟨0, 40⟩, ⟨40, 100⟩] := ⟨by decide, by decide⟩
  have sorted : Ordered [⟨10, 60⟩, ⟨20, 25⟩, ⟨30, 50⟩, ⟨70, 80⟩] := by
    unfold Ordered
    decide
  exact (subtractIntervals_difference successive sorted (by decide)).1

/-! ## Saturation -/

/-- What merging leaves is successive, and so is what the sweep reports. -/
theorem computeSaturatedSpans_successive {allocs : List Span} {capacity : Nat} (proper : ∀ a ∈ allocs, a.start < a.end)
    (sorted : capacity = 1 → Ordered allocs) : Successive (computeSaturatedSpans allocs capacity) := by
  rcases Nat.lt_trichotomy capacity 1 with less | single | several
  · rw [Nat.lt_one_iff.mp less]
    unfold computeSaturatedSpans
    simp only [beq_self_eq_true, Bool.or_true, ↓reduceIte]
    exact .nil
  · have merged := mergeOverlapping_separate (sorted single) proper
    subst single
    unfold computeSaturatedSpans
    split
    · exact .nil
    · exact merged.successive
  · refine ⟨saturated_proper several, ?_⟩
    rw [computeSaturatedSpans_sweep allocs several]
    exact List.pairwise_map.mpr (Sweep.saturated_apart
      (Sweep.before_byTime (List.pairwise_insertionSort Sweep.Before (Sweep.endpoints _))) 0 none)

/-- The saturated spans cover the instants at which as many allocations as the capacity are open. -/
theorem computeSaturatedSpans_covers {allocs : List Span} {capacity : Nat} (positive : 1 ≤ capacity)
    (proper : ∀ a ∈ allocs, a.start < a.end) (sorted : capacity = 1 → Ordered allocs) (t : Ms) :
    Covers (computeSaturatedSpans allocs capacity) t ↔ capacity ≤ occupancy allocs t := by
  rcases Nat.eq_or_lt_of_le positive with single | several
  · have merged := mergeOverlapping_covers (sorted single.symm) t
    subst single
    unfold computeSaturatedSpans
    split
    · next empty =>
        have none' : allocs = [] := by simpa using empty
        rw [none', covers_iff_occupancy]
        rfl
    · exact merged.trans covers_iff_occupancy
  · exact covers_saturated several proper t

/-- The sweep finds exactly the full instants: its counter stays in range and comes back to zero,
    no range is left open at its end, and the ranges it reports are successive. -/
theorem computeSaturatedSpans_exact {allocs : List Span} {capacity : Nat} (positive : 1 ≤ capacity)
    (proper : ∀ a ∈ allocs, a.start < a.end) (few : allocs.length < 2 ^ 31) (sorted : capacity = 1 → Ordered allocs) :
    Loops.computeSaturatedSpans allocs capacity = some (computeSaturatedSpans allocs capacity) ∧
      (∃ swept, Loops.sweep capacity allocs = some swept ∧ swept.count = 0 ∧ swept.saturatedStart = none) ∧
      Successive (computeSaturatedSpans allocs capacity) ∧
      ∀ t, Covers (computeSaturatedSpans allocs capacity) t ↔ capacity ≤ occupancy allocs t := by
  have fits : allocs.length ≤ u32Max := by
    unfold u32Max
    omega
  refine ⟨Loops.computeSaturatedSpans_returns proper fits, ⟨_, Loops.sweep_returns positive proper fits, rfl, rfl⟩, ?_, ?_⟩
  · exact computeSaturatedSpans_successive proper sorted
  · exact computeSaturatedSpans_covers positive proper sorted

/-- Two of three out of order, with a closing and an opening at one instant. -/
theorem crowded_spans : Loops.computeSaturatedSpans [⟨20, 40⟩, ⟨0, 30⟩, ⟨30, 50⟩] 2 = some [⟨20, 30⟩, ⟨30, 40⟩] := by
  exact (computeSaturatedSpans_exact (by decide) (by decide) (by decide) fun single => by cases single).1

end Deltat
