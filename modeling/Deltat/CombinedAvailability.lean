import Deltat.MergedReads

/-! # Combined availability

The availability of a list of resources is told by a count: the instants at which enough of the
listed resources are free, each counted as often as it is listed, as runs with gaps between them.
-/

namespace Deltat

open Lib Limits Availability

instance (spans : List Span) (t : Ms) : Decidable (Covers spans t) :=
  inferInstanceAs (Decidable (∃ s ∈ spans, s.start ≤ t ∧ t < s.end))

namespace InMemoryStore

variable {s : InMemoryStore} {ids : List Ulid} {first last : Ms} {n : Nat}

/-- Clamping the bounds of a window does not widen it. -/
theorem clamped_narrow {first last : Ms} (narrow : satSub last first ≤ maxQueryWindowMs) :
    satSub (clampTimestamp last) (clampTimestamp first) ≤ maxQueryWindowMs := by
  have limit : maxQueryWindowMs < i64Max := by decide
  have least : i64Min ≤ maxQueryWindowMs := by decide
  have room : 0 ≤ maxQueryWindowMs := by decide
  have bounds : minValidTimestampMs ≤ maxValidTimestampMs := by decide
  simp only [satSub, clampTimestamp] at narrow ⊢
  lia

/-- A read of a narrow window is answered. -/
theorem computeAvailability_answers (tree : s.WellFormedTree) (now : Ms) (narrow : satSub last first ≤ maxQueryWindowMs)
    (r : Ulid) : ∃ free, s.computeAvailability now r first last none = .ok free := by
  cases present : s.getResource r with
  | none =>
      have width := clamped_narrow narrow
      unfold clampTimestamp at width
      simp only [computeAvailability, present]
      split
      · exact ⟨[], rfl⟩
      · rw [if_neg (Int.not_lt.mpr width)]
        exact ⟨[], rfl⟩
  | some rs =>
      obtain ⟨line, lineage, shallow⟩ := tree.ancestors r rs present
      exact ⟨_, computeAvailability_ok present lineage shallow (clamped_narrow narrow)⟩

/-- A resource is free at no instant of a window that is closed. -/
theorem freeOf_closed (tree : s.WellFormedTree) (now : Ms) (closed : last ≤ first) (r : Ulid) (t : Ms) :
    ¬ Covers (s.freeOf now first last r) t := by
  intro free
  obtain ⟨span, inside, started, ended⟩ := free
  unfold freeOf at inside
  cases read : s.computeAvailability now r first last none with
  | error error =>
      rw [read] at inside
      cases inside
  | ok free =>
      rw [read] at inside
      obtain ⟨lower, upper⟩ := (computeAvailability_runs tree read).2 span inside
      simp only [clampTimestamp] at lower upper
      lia

theorem covers_countP (t : Ms) (own : Ulid → List Span) (ids : List Ulid) :
    (ids.map own).countP (fun free => decide (Covers free t)) =
      ids.countP fun r => decide (0 < occupancy (own r) t) := by
  rw [List.countP_map]
  apply List.countP_congr
  intro r _
  simp [covers_iff_occupancy]

/-- What a read without a least length answers. -/
theorem combined_runs (tree : s.WellFormedTree) (now : Ms) (few : ids.length ≤ maxInClauseIds)
    (narrow : satSub last first ≤ maxQueryWindowMs) (positive : 0 < n) :
    ∃ combined, (∀ shortest, MergedRead s now ids first last n shortest (longEnough shortest combined)) ∧ Separate combined ∧
      ∀ t, Covers combined t ↔ n ≤ (ids.map (s.freeOf now first last)).countP fun free => decide (Covers free t) := by
  have reads : ∀ r ∈ ids, ∃ free, s.computeAvailability now r first last none = .ok free :=
    fun r _ => computeAvailability_answers tree now narrow r
  have nothing : ∀ shortest, longEnough shortest [] = [] := fun shortest => by cases shortest <;> rfl
  by_cases closed : last ≤ first
  · refine ⟨[], fun shortest => (nothing shortest).symm ▸ .closed closed, .nil, fun t => ?_⟩
    apply iff_of_false covers_nil
    rw [covers_countP]
    have none' : ids.countP (fun r => decide (0 < occupancy (s.freeOf now first last r) t)) = 0 := by
      apply List.countP_eq_zero.mpr
      intro r _
      rw [decide_eq_true_iff, ← covers_iff_occupancy]
      exact freeOf_closed tree now closed r t
    lia
  · have wide := Int.not_le.mp closed
    by_cases enough : n ≤ ids.length
    · refine ⟨_, fun shortest => .merged wide narrow few positive enough reads,
        mergeOverlapping_separate sweepSegments_ordered sweepSegments_proper, fun t => ?_⟩
      rw [mergeOverlapping_covers sweepSegments_ordered,
        sweepSegments_covers positive fun a found => (reads_proper tree reads a found).1, occupancy_reads tree reads,
        covers_countP]
    · have less := Nat.not_le.mp enough
      refine ⟨[], fun shortest => (nothing shortest).symm ▸ .idle wide narrow few (.inr (.inr less)), .nil, fun t => ?_⟩
      apply iff_of_false covers_nil
      rw [covers_countP]
      have atMost : ids.countP (fun r => decide (0 < occupancy (s.freeOf now first last r) t)) ≤ ids.length :=
        List.countP_le_length
      lia

/-- Combined availability counts: it covers the instants at which at least `n` entries of the list are free, in
    maximal runs, and a least length keeps the runs that have it. -/
theorem computeMultiAvailability_counts (tree : s.WellFormedTree) (now : Ms) (few : ids.length ≤ maxInClauseIds)
    (narrow : satSub last first ≤ maxQueryWindowMs) (positive : 0 < n) :
    ∃ own combined, ids.mapM (s.computeAvailability now · first last none) = .ok own ∧
      s.computeMultiAvailability now ids first last n none = .ok combined ∧ Separate combined ∧
      (∀ t, Covers combined t ↔ n ≤ own.countP fun free => decide (Covers free t)) ∧
      ∀ d, s.computeMultiAvailability now ids first last n (some d) =
        .ok (combined.filter fun span => decide (span.durationMs ≥ d)) := by
  obtain ⟨combined, answers, separate, covers⟩ := combined_runs tree now few narrow positive
  have reads : ids.mapM (s.computeAvailability now · first last none) = .ok (ids.map (s.freeOf now first last)) :=
    mapM_reads fun r _ => computeAvailability_answers tree now narrow r
  exact ⟨_, combined, reads, computeMulti_merged.mpr (answers none), separate, covers,
    fun d => computeMulti_merged.mpr (answers (some d))⟩

/-- A desk listed twice is counted twice. -/
theorem desk_counted_twice : ∃ combined,
    Engine.deskInBuilding.store.computeMultiAvailability 0 [2, 2] 0 100 2 none = .ok combined ∧ Separate combined ∧
      ∀ d, Engine.deskInBuilding.store.computeMultiAvailability 0 [2, 2] 0 100 2 (some d) =
        .ok (combined.filter fun span => decide (span.durationMs ≥ d)) := by
  have few : ([2, 2] : List Ulid).length ≤ maxInClauseIds := by decide
  have narrow : satSub 100 0 ≤ maxQueryWindowMs := by decide
  obtain ⟨_, combined, _, answer, separate, _, least⟩ :=
    computeMultiAvailability_counts Engine.deskInBuilding_reachable.wellFormedTree 0 few narrow Nat.two_pos
  exact ⟨combined, answer, separate, least⟩

end InMemoryStore

end Deltat
