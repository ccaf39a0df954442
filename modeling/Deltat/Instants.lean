import Deltat.Exactness

/-! # The read path, instant by instant

Merging keeps the instants that sorted spans cover, and subtracting takes away exactly the
instants that the removals cover. So an availability covers an instant of its query when
the schedule opens it, no blocking rule closes it, and the live allocations leave room.
-/

namespace Deltat

open Lib Limits Conflict Availability

/-! ## What a list of spans covers -/

theorem covers_nil {t : Ms} : ¬ Covers [] t := by
  simp [Covers]

theorem covers_cons {s : Span} {spans : List Span} {t : Ms} :
    Covers (s :: spans) t ↔ (s.start ≤ t ∧ t < s.end) ∨ Covers spans t := by
  simp [Covers]

theorem covers_append {spans others : List Span} {t : Ms} :
    Covers (spans ++ others) t ↔ Covers spans t ∨ Covers others t := by
  simp [Covers, or_and_right, exists_or]

theorem covers_perm {spans others : List Span} (same : spans.Perm others) {t : Ms} :
    Covers spans t ↔ Covers others t := by
  simp only [Covers, same.mem_iff]

theorem covers_sortByStart {spans : List Span} {t : Ms} : Covers (sortByStart spans) t ↔ Covers spans t :=
  covers_perm (sortByStart_perm spans)

/-- In order of their starts. -/
def Ordered (spans : List Span) : Prop := spans.Pairwise fun a b => a.start ≤ b.start

theorem sortByStart_ordered (spans : List Span) : Ordered (sortByStart spans) := by
  have total : Std.Total fun a b : Span => a.start ≤ b.start := ⟨fun a b => le_total a.start b.start⟩
  have trans : IsTrans Span fun a b => a.start ≤ b.start := ⟨fun _ _ _ => le_trans⟩
  exact List.pairwise_insertionSort (fun a b : Span => a.start ≤ b.start) spans

/-- An instant before every start is not covered. -/
theorem not_covers_before {spans : List Span} {t : Ms} (before : ∀ s ∈ spans, t < s.start) : ¬ Covers spans t := by
  rintro ⟨s, inside, started, _⟩
  have later := before s inside
  lia

namespace Availability

/-! ## Merging -/

theorem mergeFrom_covers {rest : List Span} {last : Span} (ordered : Ordered (last :: rest)) (t : Ms) :
    Covers (mergeFrom last rest) t ↔ Covers (last :: rest) t := by
  induction rest generalizing last with
  | nil => rfl
  | cons span rest ih =>
      obtain ⟨ahead, behind⟩ := List.pairwise_cons.mp ordered
      have first := ahead span List.mem_cons_self
      unfold mergeFrom
      split
      · next touches =>
          have extended : Ordered (⟨last.start, max last.end span.end⟩ :: rest) :=
            .cons (fun s inside => ahead s (List.mem_cons_of_mem _ inside)) behind.of_cons
          rw [ih extended, covers_cons, covers_cons, covers_cons]
          grind
      · rw [covers_cons, ih behind]
        exact covers_cons.symm

/-- The merged spans begin no earlier than the first one, and lie apart. -/
theorem mergeFrom_apart {rest : List Span} {last : Span} (ordered : Ordered (last :: rest)) :
    (∀ s ∈ mergeFrom last rest, last.start ≤ s.start) ∧
      (mergeFrom last rest).Pairwise fun a b => a.start ≤ b.start ∧ a.end ≤ b.start := by
  induction rest generalizing last with
  | nil =>
      simp [mergeFrom]
  | cons span rest ih =>
      obtain ⟨ahead, behind⟩ := List.pairwise_cons.mp ordered
      have first := ahead span List.mem_cons_self
      unfold mergeFrom
      split
      · have extended : Ordered (⟨last.start, max last.end span.end⟩ :: rest) :=
          .cons (fun s inside => ahead s (List.mem_cons_of_mem _ inside)) behind.of_cons
        exact ih extended
      · next gap =>
          obtain ⟨begins, apart⟩ := ih behind
          have after : ∀ s ∈ mergeFrom span rest, last.start ≤ s.start ∧ last.end ≤ s.start := by
            intro s inside
            have later := begins s inside
            lia
          constructor
          · intro s inside
            rcases List.mem_cons.mp inside with same | inside
            · rw [same]
            · exact (after s inside).1
          · exact .cons after apart

theorem mergeOverlapping_covers {spans : List Span} (ordered : Ordered spans) (t : Ms) :
    Covers (mergeOverlapping spans) t ↔ Covers spans t := by
  cases spans with
  | nil => rfl
  | cons span rest => exact mergeFrom_covers ordered t

theorem mergeOverlapping_apart {spans : List Span} (ordered : Ordered spans) :
    (mergeOverlapping spans).Pairwise fun a b => a.start ≤ b.start ∧ a.end ≤ b.start := by
  cases spans with
  | nil => exact .nil
  | cons span rest => exact (mergeFrom_apart ordered).2

/-! ## Subtracting -/

/-- What is left of one base span is the instants of it that no removal covers. -/
theorem carve_covers {removals : List Span} {low high : Ms} (ordered : Ordered removals) (t : Ms) :
    Covers (carve low high removals) t ↔ (low ≤ t ∧ t < high) ∧ ¬ Covers removals t := by
  induction removals generalizing low with
  | nil =>
      unfold carve
      split <;> simp [Covers]
      lia
  | cons r rest ih =>
      obtain ⟨ahead, behind⟩ := List.pairwise_cons.mp ordered
      unfold carve
      split
      · have early : t < r.start → ¬ Covers rest t := fun before =>
          not_covers_before fun s inside => lt_of_lt_of_le before (ahead s inside)
        simp only
        rw [covers_append, ih behind, covers_cons]
        split
        · rw [covers_cons]
          have nothing := @covers_nil t
          grind
        · have nothing := @covers_nil t
          grind
      · next beyond =>
          have late : t < high → ¬ Covers (r :: rest) t := fun inside =>
            not_covers_before fun s found => by
              rcases List.mem_cons.mp found with same | found
              · rw [same]
                lia
              · have later := ahead s found
                lia
          split
          · rw [covers_cons]
            have nothing := @covers_nil t
            grind
          · have nothing := @covers_nil t
            grind

/-- A removal that ends before an instant does not cover it. -/
theorem covers_dropWhile {removals : List Span} {low t : Ms} (after : low ≤ t) :
    Covers (removals.dropWhile fun r => decide (r.end ≤ low)) t ↔ Covers removals t := by
  induction removals with
  | nil => rfl
  | cons r rest ih =>
      rw [List.dropWhile_cons]
      split
      · next ended =>
          have past := of_decide_eq_true ended
          rw [ih, covers_cons]
          grind
      · rfl

/-- Subtracting leaves the instants of the base that no removal covers. -/
theorem subtractIntervals_covers {base removals : List Span} (starts : Ordered base) (ordered : Ordered removals)
    (t : Ms) : Covers (subtractIntervals base removals) t ↔ Covers base t ∧ ¬ Covers removals t := by
  induction base generalizing removals with
  | nil => simp [subtractIntervals, Covers]
  | cons b base ih =>
      obtain ⟨ahead, behind⟩ := List.pairwise_cons.mp starts
      have left : Ordered (removals.dropWhile fun r => decide (r.end ≤ b.start)) :=
        ordered.sublist (List.dropWhile_sublist _)
      have same : b.start ≤ t →
          (Covers (removals.dropWhile fun r => decide (r.end ≤ b.start)) t ↔ Covers removals t) :=
        covers_dropWhile
      have later : Covers base t → b.start ≤ t := by
        rintro ⟨s, inside, started, _⟩
        exact (ahead s inside).trans started
      simp only [subtractIntervals]
      rw [covers_append, carve_covers left, ih behind left, covers_cons]
      grind

/-- The pieces of one base span are proper, and lie inside it. -/
theorem carve_within {removals : List Span} {low high : Ms} :
    ∀ s ∈ carve low high removals, low ≤ s.start ∧ s.start < s.end ∧ s.end ≤ high := by
  induction removals generalizing low with
  | nil =>
      intro s inside
      unfold carve at inside
      split at inside
      · next proper =>
          rw [List.mem_singleton.mp inside]
          exact ⟨le_refl _, proper, le_refl _⟩
      · cases inside
  | cons r rest ih =>
      intro s inside
      unfold carve at inside
      split at inside
      · next early =>
          rcases List.mem_append.mp inside with left | right
          · split at left
            · next proper =>
                rw [List.mem_singleton.mp left]
                exact ⟨le_refl _, proper, le_of_lt early⟩
            · cases left
          · obtain ⟨after, proper, within⟩ := ih s right
            exact ⟨(le_max_left _ _).trans after, proper, within⟩
      · split at inside
        · next proper =>
            rw [List.mem_singleton.mp inside]
            exact ⟨le_refl _, proper, le_refl _⟩
        · cases inside

theorem carve_ordered {removals : List Span} {low high : Ms} : Ordered (carve low high removals) := by
  induction removals generalizing low with
  | nil =>
      unfold carve
      split
      · exact List.pairwise_singleton _ _
      · exact .nil
  | cons r rest ih =>
      unfold carve
      split
      · simp only
        split
        · apply List.Pairwise.cons
          · intro s right
            exact (le_max_left _ _).trans (carve_within s right).1
          · exact ih
        · exact ih
      · split
        · exact List.pairwise_singleton _ _
        · exact .nil

theorem subtractIntervals_within {base removals : List Span} :
    ∀ s ∈ subtractIntervals base removals, s.start < s.end ∧ ∃ b ∈ base, b.start ≤ s.start := by
  induction base generalizing removals with
  | nil => simp [subtractIntervals]
  | cons b base ih =>
      intro s inside
      simp only [subtractIntervals] at inside
      rcases List.mem_append.mp inside with first | other
      · obtain ⟨after, proper, _⟩ := carve_within s first
        exact ⟨proper, b, List.mem_cons_self, after⟩
      · obtain ⟨proper, b', later, after⟩ := ih s other
        exact ⟨proper, b', List.mem_cons_of_mem _ later, after⟩

/-- What is left of spans that lie apart is in order. -/
theorem subtractIntervals_ordered {base removals : List Span}
    (apart : base.Pairwise fun a b => a.start ≤ b.start ∧ a.end ≤ b.start) :
    Ordered (subtractIntervals base removals) := by
  induction base generalizing removals with
  | nil => exact .nil
  | cons b base ih =>
      obtain ⟨ahead, behind⟩ := List.pairwise_cons.mp apart
      apply List.pairwise_append.mpr
      refine ⟨carve_ordered, ih behind, fun s first s' other => ?_⟩
      obtain ⟨_, proper, within⟩ := carve_within s first
      obtain ⟨_, b', inside, after⟩ := subtractIntervals_within s' other
      have gap := (ahead b' inside).2
      lia

/-! ## Open windows -/

/-- The effective open windows cover what the base schedule opens and no blocking span
    closes, and they are in order. -/
theorem assembleOpenWindows_covers (base ownBlocking inheritedBlocking : List Span) (t : Ms) :
    Covers (assembleOpenWindows base ownBlocking inheritedBlocking) t ↔
      Covers base t ∧ ¬ Covers ownBlocking t ∧ ¬ Covers inheritedBlocking t := by
  have apart := mergeOverlapping_apart (sortByStart_ordered base)
  have opened := (mergeOverlapping_covers (sortByStart_ordered base) t).trans covers_sortByStart
  have blocked : Covers (sortByStart (ownBlocking ++ inheritedBlocking)) t ↔
      Covers ownBlocking t ∨ Covers inheritedBlocking t := covers_sortByStart.trans covers_append
  unfold assembleOpenWindows
  simp only
  split
  · next empty =>
      rw [List.isEmpty_iff.mp empty] at blocked
      have nothing := @covers_nil t
      grind
  · rw [subtractIntervals_covers (apart.imp fun h => h.1) (sortByStart_ordered _), opened, blocked]
    grind

theorem assembleOpenWindows_ordered (base ownBlocking inheritedBlocking : List Span) :
    Ordered (assembleOpenWindows base ownBlocking inheritedBlocking) := by
  have apart := mergeOverlapping_apart (sortByStart_ordered base)
  unfold assembleOpenWindows
  simp only
  split
  · exact apart.imp fun h => h.1
  · exact subtractIntervals_ordered apart

/-! ## Saturated spans -/

theorem computeSaturatedSpans_ordered (allocs : List Span) {capacity : Nat} (several : 2 ≤ capacity) :
    Ordered (computeSaturatedSpans allocs capacity) := by
  rw [computeSaturatedSpans_sweep allocs several]
  have byTime := Sweep.before_byTime
    (List.pairwise_insertionSort Sweep.Before (Sweep.endpoints (allocs.map fun a => (a.start, a.end))))
  exact List.pairwise_map.mpr (Sweep.saturated_ordered byTime 0 none)

theorem covers_iff_occupancy {spans : List Span} {t : Ms} : Covers spans t ↔ 0 < occupancy spans t := by
  simp [Covers, occupancy, List.countP_pos_iff]

end Availability

namespace ResourceState

/-- Whether a rule of the kind covers the instant. -/
def hasRuleAt (rs : ResourceState) (kind : IntervalKind) (t : Ms) : Bool :=
  rs.intervals.any fun i => decide (i.kind = kind) && i.span.containsInstant t

variable {rs : ResourceState} {query : Span} {t now : Ms}

/-- Clamping to the query keeps the instants of the query. -/
theorem covers_clamped (sorted : rs.intervals.Pairwise fun a b => a.span.start ≤ b.span.start) (kind : IntervalKind)
    (started : query.start ≤ t) (notEnded : t < query.end) :
    Covers (((rs.overlapping query).filter (·.kind = kind)).map fun i =>
        ⟨max i.span.start query.start, min i.span.end query.end⟩) t ↔ rs.hasRuleAt kind t = true := by
  unfold hasRuleAt
  rw [overlapping_eq sorted, List.any_eq_true]
  constructor
  · rintro ⟨_, inside, covered⟩
    obtain ⟨i, found, rfl⟩ := List.mem_map.mp inside
    obtain ⟨found, kept⟩ := List.mem_filter.mp found
    refine ⟨i, (List.mem_filter.mp found).1, ?_⟩
    simp only [Span.containsInstant, Bool.and_eq_true, decide_eq_true_eq] at kept covered ⊢
    exact ⟨kept, by lia, by lia⟩
  · rintro ⟨i, inside, holds⟩
    simp only [Span.containsInstant, Bool.and_eq_true, decide_eq_true_eq] at holds
    obtain ⟨kept, begun, open'⟩ := holds
    refine ⟨_, List.mem_map_of_mem (List.mem_filter.mpr ⟨List.mem_filter.mpr ⟨inside, ?_⟩, ?_⟩), ?_⟩
    · simp only [Bool.and_eq_true, decide_eq_true_eq]
      exact ⟨by lia, by lia⟩
    · simpa using kept
    · simp only
      lia

theorem ownRuleSpans_covers (sorted : rs.intervals.Pairwise fun a b => a.span.start ≤ b.span.start)
    (started : query.start ≤ t) (notEnded : t < query.end) :
    (Covers (ownRuleSpans rs query).1 t ↔ rs.hasRuleAt .nonBlocking t = true) ∧
      (Covers (ownRuleSpans rs query).2 t ↔ rs.hasRuleAt .blocking t = true) :=
  ⟨covers_clamped sorted .nonBlocking started notEnded, covers_clamped sorted .blocking started notEnded⟩

/-! ## What a read means -/

/-- The live footprints that a read collects count the live allocations at every instant of
    the query. -/
theorem occupancy_active (timeline : rs.Timeline) (started : query.start ≤ t) (notEnded : t < query.end)
    (range : t < i64Max) :
    occupancy (((rs.overlapping ⟨max (satSub query.start rs.buffer) 0, query.end⟩).filter fun i =>
        i.kind.live now && decide (satAdd i.span.end rs.buffer > query.start)).map (·.span.buffered rs.buffer)) t =
      rs.liveAt now t := by
  rw [occupancy, List.countP_map, List.countP_filter, overlapping_eq timeline.sorted, List.countP_filter, liveAt]
  apply List.countP_congr
  intro i inside
  have footprint := @footprint_iff rs _ (timeline.spans i inside) t
  simp only [Function.comp_apply, Bool.and_eq_true, decide_eq_true_eq] at footprint ⊢
  rw [footprint]
  constructor
  · rintro ⟨⟨⟨_, occupied⟩, live, _⟩, _⟩
    exact ⟨live, occupied⟩
  · rintro ⟨live, occupied⟩
    obtain ⟨begun, notOver⟩ := footprint.mpr ⟨range, occupied⟩
    have reached := search_reaches (timeline.spans i inside) started occupied
    exact ⟨⟨⟨range, occupied⟩, live, lt_of_le_of_lt started notOver⟩, lt_of_le_of_lt begun notEnded, reached⟩

/-- The base schedule and the blocking rules of a read, at an instant of its query. -/
theorem opened_covers (timeline : rs.Timeline) (nonBlocking blocking : List Span) (started : query.start ≤ t)
    (notEnded : t < query.end) :
    Covers (assembleOpenWindows (if rs.hasNonBlockingRule then (ownRuleSpans rs query).1 else nonBlocking)
        (ownRuleSpans rs query).2 blocking) t ↔
      (if rs.hasNonBlockingRule then rs.hasRuleAt .nonBlocking t = true else Covers nonBlocking t) ∧
        rs.hasRuleAt .blocking t = false ∧ ¬ Covers blocking t := by
  obtain ⟨opens, closes⟩ := ownRuleSpans_covers timeline.sorted started notEnded
  rw [assembleOpenWindows_covers, closes, Bool.not_eq_true]
  split
  · rw [opens]
  · rfl

/-- The instants that live allocations leave of the open windows. -/
theorem subtractActive_covers {free active : List Span} {capacity count : Nat} (ordered : Ordered free)
    (proper : ∀ a ∈ active, a.start < a.end) (counted : occupancy active t = count) :
    Covers (if active.isEmpty then free
      else if capacity ≤ 1 then subtractIntervals free (sortByStart active)
      else if (computeSaturatedSpans (sortByStart active) capacity).isEmpty then free
      else subtractIntervals free (computeSaturatedSpans (sortByStart active) capacity)) t ↔
      Covers free t ∧ count < max capacity 1 := by
  split
  · next empty =>
      rw [List.isEmpty_iff.mp empty] at counted
      have nobody : count = 0 := counted.symm
      simp [nobody]
  · split
    · next one =>
        have room : max capacity 1 = 1 := max_eq_right one
        have taken : Covers active t ↔ 0 < count := by rw [covers_iff_occupancy, counted]
        rw [subtractIntervals_covers ordered (sortByStart_ordered active), covers_sortByStart, taken, room]
        grind
    · next several =>
        have several : 2 ≤ capacity := Nat.lt_of_not_le several
        have room : max capacity 1 = capacity := max_eq_left (by omega)
        have sorted : ∀ a ∈ sortByStart active, a.start < a.end := fun a inside =>
          proper a ((sortByStart_perm active).mem_iff.mp inside)
        have full := covers_saturated several sorted t
        rw [occupancy_perm (sortByStart_perm active), counted] at full
        rw [room]
        split
        · next empty =>
            rw [List.isEmpty_iff.mp empty] at full
            have nothing := @covers_nil t
            grind
        · rw [subtractIntervals_covers ordered (computeSaturatedSpans_ordered _ several), full, Nat.not_le]

/-- What a read means: the instants of the query that the schedule opens, no blocking rule
    closes, and the live allocations leave room at. -/
theorem availability_covers (timeline : rs.Timeline) (nonBlocking blocking : List Span) (started : query.start ≤ t)
    (notEnded : t < query.end) (range : t < i64Max) :
    Covers (availability rs query nonBlocking blocking now) t ↔
      (if rs.hasNonBlockingRule then rs.hasRuleAt .nonBlocking t = true else Covers nonBlocking t) ∧
        rs.hasRuleAt .blocking t = false ∧ ¬ Covers blocking t ∧ rs.liveAt now t < max rs.capacity.toNat 1 := by
  have counted := @occupancy_active rs query t now timeline started notEnded range
  have proper : ∀ a ∈ ((rs.overlapping ⟨max (satSub query.start rs.buffer) 0, query.end⟩).filter fun i =>
      i.kind.live now && decide (satAdd i.span.end rs.buffer > query.start)).map (·.span.buffered rs.buffer),
      a.start < a.end := by
    intro a inside
    obtain ⟨i, found, rfl⟩ := List.mem_map.mp inside
    rw [overlapping_eq timeline.sorted] at found
    exact buffered_proper timeline (timeline.spans i (List.mem_filter.mp (List.mem_filter.mp found).1).1)
  apply (subtractActive_covers (assembleOpenWindows_ordered _ _ _) proper counted).trans
  rw [opened_covers timeline nonBlocking blocking started notEnded]
  simp only [and_assoc]

/-- A read is free only at instants of its base schedule. -/
theorem covers_base_of_availability {nonBlocking blocking : List Span}
    (free : Covers (availability rs query nonBlocking blocking now) t) :
    Covers (if rs.hasNonBlockingRule then (ownRuleSpans rs query).1 else nonBlocking) t := by
  apply ((assembleOpenWindows_covers _ (ownRuleSpans rs query).2 blocking t).mp _).1
  have ordered := assembleOpenWindows_ordered
    (if rs.hasNonBlockingRule then (ownRuleSpans rs query).1 else nonBlocking) (ownRuleSpans rs query).2 blocking
  unfold availability at free
  simp only at free
  split at free
  · exact free
  · split at free
    · exact ((subtractIntervals_covers ordered (sortByStart_ordered _) t).mp free).1
    · next several =>
        split at free
        · exact free
        · have sorted := fun allocs => computeSaturatedSpans_ordered allocs (Nat.lt_of_not_le several)
          exact ((subtractIntervals_covers ordered (sorted _) t).mp free).1

/-- A clamped rule lies inside the query. -/
theorem clamped_within {kind : IntervalKind}
    (covered : Covers (((rs.overlapping query).filter (·.kind = kind)).map fun i =>
      ⟨max i.span.start query.start, min i.span.end query.end⟩) t) : query.start ≤ t ∧ t < query.end := by
  obtain ⟨_, inside, started, notEnded⟩ := covered
  obtain ⟨i, _, rfl⟩ := List.mem_map.mp inside
  exact ⟨(le_max_right _ _).trans started, lt_of_lt_of_le notEnded (min_le_right _ _)⟩

end ResourceState

end Deltat
