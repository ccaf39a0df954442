import Deltat.Checks

/-! # The conflict checks are exact

An allocation occupies its span and the resource's buffer behind it. Both conflict checks,
the overlap test for capacity one and the sweep for more, pass exactly when every instant
the candidate would occupy has room left.
-/

namespace Deltat

open Lib Limits Conflict Availability

/-- A proper span of instants that a timestamp can hold, from the epoch on. -/
structure Span.Representable (s : Span) : Prop where
  proper : s.start < s.end
  lower : 0 ≤ s.start
  upper : s.end ≤ i64Max

theorem Span.Admitted.representable {s : Span} (admitted : s.Admitted) : s.Representable where
  proper := admitted.proper
  lower := admitted.lower
  upper := admitted.upper.trans (by decide)

namespace ResourceState

/-- Whether the buffered footprint of a span on this resource contains the instant. -/
def occupies (rs : ResourceState) (s : Span) (t : Ms) : Bool :=
  decide (s.start ≤ t) && decide (t < s.end + rs.buffer)

/-- The live allocations, the excluded one left out, whose footprint contains the instant. -/
def othersAt (rs : ResourceState) (now : Ms) (exclude : Option Ulid) (t : Ms) : Nat :=
  rs.intervals.countP fun i => decide (some i.id ≠ exclude) && i.kind.live now && rs.occupies i.span t

/-- The live allocations whose footprint contains the instant. -/
def liveAt (rs : ResourceState) (now t : Ms) : Nat :=
  rs.intervals.countP fun i => i.kind.live now && rs.occupies i.span t

theorem othersAt_none (rs : ResourceState) (now t : Ms) : rs.othersAt now none t = rs.liveAt now t := by
  simp [othersAt, liveAt]

variable {rs : ResourceState} {span : Span} {now : Ms} {exclude : Option Ulid}

theorem occupies_iff {s : Span} {t : Ms} : rs.occupies s t = true ↔ s.start ≤ t ∧ t < s.end + rs.buffer := by
  simp [occupies]

/-- On sorted intervals the cut-off loses nothing: the intervals that meet the query. -/
theorem overlapping_eq (sorted : rs.intervals.Pairwise fun a b => a.span.start ≤ b.span.start) (query : Span) :
    rs.overlapping query =
      rs.intervals.filter fun i => decide (i.span.start < query.end) && decide (i.span.end > query.start) := by
  unfold overlapping
  simp only
  rw [BinarySearch.take_partitionPoint, List.filter_filter]
  · exact List.filter_congr fun i _ => Bool.and_comm _ _
  · refine sorted.imp fun {a b} le before => ?_
    rw [decide_eq_true_eq] at before ⊢
    exact lt_of_le_of_lt le before

/-- What the timeline of any resource satisfies, whatever its limits: sorted intervals with
    representable spans, and a buffer that is a duration. -/
structure Timeline (rs : ResourceState) : Prop where
  sorted : rs.intervals.Pairwise fun a b => a.span.start ≤ b.span.start
  spans : ∀ i ∈ rs.intervals, i.span.Representable
  buffer : 0 ≤ rs.buffer

theorem WellFormed.timeline (wf : rs.WellFormed) : rs.Timeline where
  sorted := wf.sorted
  spans i inside := (wf.admitted i inside).span.representable
  buffer := wf.buffer_bounds.1

/-- A footprint that would pass the end of the 64-bit range stops there. -/
theorem footprint_iff {s : Span} (held : s.Representable) {t : Ms} :
    (s.buffered rs.buffer).start ≤ t ∧ t < (s.buffered rs.buffer).end ↔ t < i64Max ∧ rs.occupies s t = true := by
  have lower := held.lower
  rw [occupies_iff]
  simp only [Span.buffered, satAdd, i64Min, i64Max]
  lia

/-- A buffer that is a duration leaves a proper span proper. -/
theorem footprint_proper {buffer : Ms} (duration : 0 ≤ buffer) {s : Span} (proper : s.start < s.end) (upper : s.end ≤ i64Max) :
    (s.buffered buffer).start < (s.buffered buffer).end := by
  simp only [Span.buffered, satAdd, i64Min, i64Max] at *
  lia

theorem buffered_proper (timeline : rs.Timeline) {s : Span} (held : s.Representable) :
    (s.buffered rs.buffer).start < (s.buffered rs.buffer).end := footprint_proper timeline.buffer held.proper held.upper

/-- What occupies an instant occupies it or the last one of the 64-bit range before it. -/
theorem occupies_clamped {s : Span} (held : s.Representable) {t : Ms} (occupied : rs.occupies s t = true) :
    rs.occupies s (min t (i64Max - 1)) = true := by
  have proper := held.proper
  have upper := held.upper
  rw [occupies_iff] at occupied ⊢
  lia

/-- What occupies an instant at or after `low` ends after a search that begins one buffer
    before `low`. -/
theorem search_reaches {s : Span} (held : s.Representable) {low t : Ms} (after : low ≤ t)
    (occupied : rs.occupies s t = true) : s.end > max (satSub low rs.buffer) 0 := by
  have proper := held.proper
  have lower := held.lower
  rw [occupies_iff] at occupied
  simp only [satSub, i64Min, i64Max] at *
  lia

/-- A footprint stays far from the ends of the 64-bit range. -/
theorem satAdd_buffer (wf : rs.WellFormed) {s : Span} (admitted : s.Admitted) :
    satAdd s.end rs.buffer = s.end + rs.buffer := by
  have bounds := wf.buffer_bounds
  have proper := admitted.proper
  have lower := admitted.lower
  have upper := admitted.upper
  simp only [satAdd, i64Min, i64Max, minValidTimestampMs, maxValidTimestampMs, maxSpanDurationMs] at *
  lia

theorem occupies_representable (wf : rs.WellFormed) {s : Span} (admitted : s.Admitted) {t : Ms}
    (occupied : rs.occupies s t = true) : t < i64Max := by
  have bounds := wf.buffer_bounds
  have upper := admitted.upper
  rw [occupies_iff] at occupied
  simp only [i64Max, maxValidTimestampMs, maxSpanDurationMs] at *
  lia

end ResourceState

/-! ## The sweep over spans -/

/-- How many of the spans contain the instant. -/
def occupancy (spans : List Span) (t : Ms) : Nat :=
  spans.countP fun s => decide (s.start ≤ t) && decide (t < s.end)

theorem sweep_occupancy (spans : List Span) (t : Ms) :
    Sweep.occupancy (spans.map fun s => (s.start, s.end)) t = occupancy spans t := by
  rw [Sweep.occupancy, occupancy, List.countP_map]
  exact List.countP_congr fun s _ => by simp

theorem occupancy_perm {spans spans' : List Span} (same : spans.Perm spans') (t : Ms) :
    occupancy spans t = occupancy spans' t :=
  same.countP_eq _

theorem sortByStart_perm (spans : List Span) : (sortByStart spans).Perm spans :=
  List.perm_insertionSort _ _

theorem overlaps_iff {a b : Span} (properA : a.start < a.end) (properB : b.start < b.end) :
    a.overlaps b = true ↔ ∃ t, (a.start ≤ t ∧ t < a.end) ∧ b.start ≤ t ∧ t < b.end := by
  simp only [Span.overlaps, Bool.and_eq_true, decide_eq_true_eq]
  constructor
  · intro meet
    exact ⟨max a.start b.start, by lia, by lia⟩
  · rintro ⟨t, inA, inB⟩
    lia

namespace Availability

theorem computeSaturatedSpans_sweep (allocs : List Span) {capacity : Nat} (several : 2 ≤ capacity) :
    computeSaturatedSpans allocs capacity =
      (Sweep.saturated capacity ((Sweep.endpoints (allocs.map fun a => (a.start, a.end))).insertionSort
        Sweep.Before) 0 none).map fun s => ⟨s.1, s.2⟩ := by
  unfold computeSaturatedSpans
  have notZero : (capacity == 0) = false := by simp; omega
  have notOne : (capacity == 1) = false := by simp; omega
  cases allocs with
  | nil => rfl
  | cons a rest => simp [notZero, notOne]

/-- Above capacity one, the saturated spans cover the instants at which the spans reach the
    capacity. -/
theorem covers_saturated {allocs : List Span} {capacity : Nat} (several : 2 ≤ capacity)
    (proper : ∀ a ∈ allocs, a.start < a.end) (t : Ms) :
    Covers (computeSaturatedSpans allocs capacity) t ↔ capacity ≤ occupancy allocs t := by
  have swept : Sweep.Covered (Sweep.saturated (capacity : Int)
        ((Sweep.endpoints (allocs.map fun a => (a.start, a.end))).insertionSort Sweep.Before) 0 none) t ↔
      (capacity : Int) ≤ Sweep.occupancy (allocs.map fun a => (a.start, a.end)) t :=
    Sweep.covered_saturated_endpoints (by omega) (by simpa using proper) t
  rw [sweep_occupancy] at swept
  rw [computeSaturatedSpans_sweep allocs several]
  simp only [Covers, List.mem_map, Sweep.Covered] at swept ⊢
  constructor
  · rintro ⟨_, ⟨s, inside, rfl⟩, holds⟩
    exact_mod_cast swept.mp ⟨s, inside, holds⟩
  · intro reached
    obtain ⟨s, inside, holds⟩ := swept.mpr (by exact_mod_cast reached)
    exact ⟨_, ⟨s, inside, rfl⟩, holds⟩

theorem saturated_proper {allocs : List Span} {capacity : Nat} (several : 2 ≤ capacity) :
    ∀ s ∈ computeSaturatedSpans allocs capacity, s.start < s.end := by
  intro s inside
  rw [computeSaturatedSpans_sweep allocs several] at inside
  obtain ⟨pair, found, rfl⟩ := List.mem_map.mp inside
  exact Sweep.saturated_proper _ _ _ pair found

/-- A saturated span meets the candidate exactly when some instant of the candidate is full. -/
theorem saturated_overlaps {allocs : List Span} {capacity : Nat} (several : 2 ≤ capacity)
    (proper : ∀ a ∈ allocs, a.start < a.end) {candidate : Span} (nonempty : candidate.start < candidate.end) :
    (computeSaturatedSpans allocs capacity).any (·.overlaps candidate) = true ↔
      ∃ t, candidate.start ≤ t ∧ t < candidate.end ∧ capacity ≤ occupancy allocs t := by
  rw [List.any_eq_true]
  constructor
  · rintro ⟨s, inside, meets⟩
    obtain ⟨t, inS, inC⟩ := (overlaps_iff (saturated_proper several s inside) nonempty).mp meets
    exact ⟨t, inC.1, inC.2, (covers_saturated several proper t).mp ⟨s, inside, inS⟩⟩
  · rintro ⟨t, lower, upper, full⟩
    obtain ⟨s, inside, inS⟩ := (covers_saturated several proper t).mpr full
    exact ⟨s, inside, (overlaps_iff (saturated_proper several s inside) nonempty).mpr ⟨t, inS, lower, upper⟩⟩

end Availability

/-! ## One candidate -/

namespace Conflict

variable {rs : ResourceState} {now : Ms} {exclude : Option Ulid}

section

variable (timeline : rs.Timeline)
include timeline

/-- The collected allocations count the live ones at every instant that only intervals
    inside the query can occupy. -/
theorem occupancy_collect {query : Span} {t : Ms} (range : t < i64Max)
    (meets : ∀ i ∈ rs.intervals, rs.occupies i.span t = true →
      i.span.start < query.end ∧ i.span.end > query.start) :
    occupancy (collectActiveAllocsWithBuffer rs query now rs.buffer exclude) t = rs.othersAt now exclude t := by
  unfold collectActiveAllocsWithBuffer
  rw [occupancy_perm (sortByStart_perm _), occupancy, List.countP_map, List.countP_filter,
    ResourceState.overlapping_eq timeline.sorted, List.countP_filter, ResourceState.othersAt]
  apply List.countP_congr
  intro i inside
  have footprint := @ResourceState.footprint_iff rs _ (timeline.spans i inside) t
  simp only [Function.comp_apply, Bool.and_eq_true, decide_eq_true_eq] at footprint ⊢
  rw [footprint]
  constructor
  · rintro ⟨⟨⟨_, covers⟩, others, live⟩, _⟩
    exact ⟨⟨others, live⟩, covers⟩
  · rintro ⟨⟨others, live⟩, covers⟩
    exact ⟨⟨⟨range, covers⟩, others, live⟩, meets i inside covers⟩

theorem collect_proper {query : Span} :
    ∀ s ∈ collectActiveAllocsWithBuffer rs query now rs.buffer exclude, s.start < s.end := by
  intro s inside
  have unsorted := (sortByStart_perm _).mem_iff.mp inside
  obtain ⟨i, found, rfl⟩ := List.mem_map.mp unsorted
  have member : i ∈ rs.intervals := by
    rw [ResourceState.overlapping_eq timeline.sorted] at found
    exact (List.mem_filter.mp (List.mem_filter.mp found).1).1
  exact ResourceState.buffered_proper timeline (timeline.spans i member)

/-- An instant past the 64-bit range is no fuller than the last one inside it. -/
theorem othersAt_clamped (t : Ms) : rs.othersAt now exclude t ≤ rs.othersAt now exclude (min t (i64Max - 1)) := by
  apply List.countP_mono_left
  intro i inside counted
  rw [Bool.and_eq_true] at counted ⊢
  exact ⟨counted.1, ResourceState.occupies_clamped (timeline.spans i inside) counted.2⟩

variable {span : Span} (held : span.Representable)
include held

/-- What occupies an instant of the candidate's footprint meets the search window. -/
theorem search_meets {t : Ms} (range : t < i64Max) (candidate : rs.occupies span t = true) :
    ∀ i ∈ rs.intervals, rs.occupies i.span t = true →
      i.span.start < satAdd span.end rs.buffer ∧
        i.span.end > max (satSub span.start rs.buffer) 0 := by
  intro i inside covers
  obtain ⟨started, notEnded⟩ := (ResourceState.footprint_iff held).mpr ⟨range, candidate⟩
  constructor
  · exact lt_of_le_of_lt (ResourceState.occupies_iff.mp covers).1 notEnded
  · exact ResourceState.search_reaches (timeline.spans i inside) started covers

/-- Two footprints overlap exactly when they share an instant. -/
theorem buffered_overlaps {s : Span} (other : s.Representable) :
    (s.buffered rs.buffer).overlaps (span.buffered rs.buffer) = true ↔
      ∃ t, t < i64Max ∧ rs.occupies s t = true ∧ rs.occupies span t = true := by
  rw [overlaps_iff (ResourceState.buffered_proper timeline other) (ResourceState.buffered_proper timeline held)]
  simp only [ResourceState.footprint_iff other, ResourceState.footprint_iff held]
  grind

/-- Somebody else's footprint overlaps the candidate's when some instant of it is taken. -/
theorem overlapping_other :
    (∃ i ∈ rs.intervals, (decide (some i.id ≠ exclude) && i.kind.live now &&
        (i.span.buffered rs.buffer).overlaps (span.buffered rs.buffer)) = true) ↔
      ∃ t, t < i64Max ∧ rs.occupies span t = true ∧ 1 ≤ rs.othersAt now exclude t := by
  constructor
  · rintro ⟨i, inside, holds⟩
    rw [Bool.and_eq_true] at holds
    obtain ⟨t, range, inI, inC⟩ := (buffered_overlaps timeline held (timeline.spans i inside)).mp holds.2
    exact ⟨t, range, inC, List.one_le_countP_iff.mpr ⟨i, inside, by rw [holds.1, inI]; rfl⟩⟩
  · rintro ⟨t, range, inC, counted⟩
    obtain ⟨i, inside, holds⟩ := List.one_le_countP_iff.mp counted
    rw [Bool.and_eq_true] at holds
    have overlap := (buffered_overlaps timeline held (timeline.spans i inside)).mpr ⟨t, range, holds.2, inC⟩
    exact ⟨i, inside, by rw [holds.1, overlap]; rfl⟩

/-- The search window misses no allocation whose footprint overlaps the candidate's. -/
theorem find_in_search :
    (rs.overlapping ⟨max (satSub span.start rs.buffer) 0, satAdd span.end rs.buffer⟩).find?
        (fun i => decide (some i.id ≠ exclude) && i.kind.live now &&
          (i.span.buffered rs.buffer).overlaps (span.buffered rs.buffer)) = none ↔
      ¬ ∃ i ∈ rs.intervals, (decide (some i.id ≠ exclude) && i.kind.live now &&
        (i.span.buffered rs.buffer).overlaps (span.buffered rs.buffer)) = true := by
  rw [List.find?_eq_none, ResourceState.overlapping_eq timeline.sorted]
  constructor
  · rintro nobody ⟨i, inside, holds⟩
    have overlap := holds
    rw [Bool.and_eq_true] at overlap
    obtain ⟨t, range, inI, inC⟩ := (buffered_overlaps timeline held (timeline.spans i inside)).mp overlap.2
    have meets := search_meets timeline held range inC i inside inI
    exact nobody i (List.mem_filter.mpr ⟨inside, by simpa using meets⟩) holds
  · intro nobody i inside holds
    exact nobody ⟨i, (List.mem_filter.mp inside).1, holds⟩

/-- Above capacity one, a saturated span meets the candidate when some instant of it is full. -/
theorem saturated_in_search {capacity : Nat} (several : 2 ≤ capacity) :
    (computeSaturatedSpans (collectActiveAllocsWithBuffer rs
        ⟨max (satSub span.start rs.buffer) 0, satAdd span.end rs.buffer⟩ now rs.buffer exclude) capacity).any
      (·.overlaps (span.buffered rs.buffer)) = true ↔
      ∃ t, t < i64Max ∧ rs.occupies span t = true ∧ capacity ≤ rs.othersAt now exclude t := by
  rw [saturated_overlaps several (collect_proper timeline) (ResourceState.buffered_proper timeline held)]
  apply exists_congr
  intro t
  rw [← and_assoc, ResourceState.footprint_iff held, and_assoc]
  apply and_congr_right
  intro range
  apply and_congr_right
  intro inC
  rw [occupancy_collect timeline range (search_meets timeline held range inC)]

/-- The conflict check passes exactly when every instant of the candidate's footprint has
    room beside the other live allocations. A capacity of zero counts as one. -/
theorem checkNoConflictExcluding_room :
    checkNoConflictExcluding rs span now exclude = .ok () ↔
      ∀ t, t < i64Max → rs.occupies span t = true → rs.othersAt now exclude t < max rs.capacity.toNat 1 := by
  unfold checkNoConflictExcluding
  simp only
  split
  · next one =>
      have passes : (∀ t, t < i64Max → rs.occupies span t = true →
          rs.othersAt now exclude t < max rs.capacity.toNat 1) ↔
          ¬ ∃ t, t < i64Max ∧ rs.occupies span t = true ∧ 1 ≤ rs.othersAt now exclude t := by
        rw [max_eq_right one]
        simp only [not_exists, not_and, Nat.not_le]
      rw [passes, ← overlapping_other timeline held, ← find_in_search timeline held]
      split
      · next found => rw [found]; simp only [reduceCtorEq]
      · next nobody => rw [nobody]; simp only
  · next several =>
      rw [ite_eq_right_iff, saturated_in_search timeline held (Nat.lt_of_not_le several),
        max_eq_left (Nat.le_of_not_le several)]
      constructor
      · intro free t range inC
        exact Nat.lt_of_not_le fun full => by cases free ⟨t, range, inC, full⟩
      · rintro room ⟨t, range, inC, full⟩
        exact absurd (room t range inC) (Nat.not_lt.mpr full)

theorem checkNoConflictExcluding_iff (positive : 0 < rs.capacity.toNat) :
    checkNoConflictExcluding rs span now exclude = .ok () ↔
      ∀ t, t < i64Max → rs.occupies span t = true → rs.othersAt now exclude t < rs.capacity.toNat := by
  rw [checkNoConflictExcluding_room timeline held, max_eq_left positive]

/-- The conflict check is exact, also where footprints pass the end of the 64-bit range. -/
theorem checkNoConflict_exact :
    checkNoConflict rs span now = .ok () ↔
      ∀ t, rs.occupies span t = true → rs.liveAt now t < max rs.capacity.toNat 1 := by
  unfold checkNoConflict
  rw [checkNoConflictExcluding_room timeline held]
  simp only [← ResourceState.othersAt_none]
  constructor
  · intro room t occupied
    have last : min t (i64Max - 1) < i64Max := by lia
    have free := room (min t (i64Max - 1)) last (ResourceState.occupies_clamped held occupied)
    exact lt_of_le_of_lt (othersAt_clamped timeline t) free
  · intro room t _ occupied
    exact room t occupied

end

/-- Two seats, one of them booked: the other one is free. -/
theorem checkNoConflict_exact_two_seats :
    checkNoConflict ⟨1, none, none, 2, some 5, [⟨7, ⟨10, 20⟩, .booking none⟩]⟩ ⟨15, 30⟩ 0 = .ok () := by
  apply (checkNoConflict_exact ⟨by decide, ?_, by decide⟩ ⟨by decide, by decide, by decide⟩).mpr
  · intro t _
    exact lt_of_le_of_lt List.countP_le_length (by decide)
  · intro i inside
    rw [List.mem_singleton.mp inside]
    exact ⟨by decide, by decide, by decide⟩

section

variable (wf : rs.WellFormed)
include wf

theorem capacity_pos : 0 < rs.capacity.toNat := by
  have nonzero : rs.capacity.toNat ≠ 0 := fun zero => wf.capacity (UInt32.toNat_inj.mp zero)
  omega

/-- On a well-formed resource no instant of an admitted footprint is out of range. -/
theorem checkNoConflictExcluding_ok {span : Span} (admitted : span.Admitted) :
    checkNoConflictExcluding rs span now exclude = .ok () ↔
      ∀ t, rs.occupies span t = true → rs.othersAt now exclude t < rs.capacity.toNat := by
  rw [checkNoConflictExcluding_iff wf.timeline admitted.representable (capacity_pos wf)]
  constructor
  · intro room t occupied
    exact room t (rs.occupies_representable wf admitted occupied) occupied
  · intro room t _ occupied
    exact room t occupied

/-! ## A batch -/

/-- The members whose footprint contains the instant. -/
def batchAt (rs : ResourceState) (spans : List Span) (t : Ms) : Nat := spans.countP (rs.occupies · t)

omit wf in
theorem countP_le_one {α : Type} {p : α → Bool} {xs : List α}
    (apart : xs.Pairwise fun a b => ¬ (p a = true ∧ p b = true)) : xs.countP p ≤ 1 := by
  induction xs with
  | nil => simp
  | cons x rest ih =>
      obtain ⟨first, apart⟩ := List.pairwise_cons.mp apart
      rw [List.countP_cons]
      split
      · next holds =>
          have none : rest.countP p = 0 := List.countP_eq_zero.mpr fun y inRest also =>
            first y inRest ⟨holds, also⟩
          omega
      · have := ih apart
        omega

/-- The pairwise check of a capacity-1 batch leaves no two footprints sharing an instant. -/
theorem checkPairwise_apart {batch : List (Ulid × Span)} (admitted : ∀ m ∈ batch, m.2.Admitted)
    (ok : Engine.checkPairwise rs.buffer batch = .ok ()) (t : Ms) :
    batch.Pairwise fun a b => ¬ (rs.occupies a.2 t = true ∧ rs.occupies b.2 t = true) := by
  induction batch with
  | nil => exact .nil
  | cons m rest ih =>
      obtain ⟨_, others, later⟩ := Outcome.bind_ok.mp ok
      refine .cons (fun other inRest both => ?_)
        (ih (fun m' inside => admitted m' (List.mem_cons_of_mem _ inside)) later)
      obtain ⟨_, first, second⟩ := Outcome.bind_ok.mp (Outcome.forM_ok.mp others other inRest)
      have here := admitted m List.mem_cons_self
      have there := admitted other (List.mem_cons_of_mem _ inRest)
      have first := rejectIf_ok.mp first
      have second := rejectIf_ok.mp second
      have properHere := here.proper
      have properThere := there.proper
      simp only [ResourceState.occupies_iff] at both
      simp only [Span.overlaps, Span.buffered, rs.satAdd_buffer wf here, rs.satAdd_buffer wf there,
        Bool.and_eq_true, decide_eq_true_eq] at first second
      lia

/-- What occupies an instant of a member's footprint meets the batch's window. -/
theorem window_meets {m : Span} (admitted : m.Admitted) {t lo hi : Ms} (covers : rs.occupies m t = true)
    (lowest : lo ≤ m.start) (highest : satAdd m.end rs.buffer ≤ hi) :
    ∀ i ∈ rs.intervals, rs.occupies i.span t = true →
      i.span.start < hi ∧ i.span.end > max (satSub lo rs.buffer) 0 := by
  intro i inside held
  have range := rs.occupies_representable wf admitted covers
  obtain ⟨before, after⟩ := search_meets wf.timeline admitted.representable range covers i inside held
  have earlier : satSub lo rs.buffer ≤ satSub m.start rs.buffer := by
    simp only [satSub]
    lia
  exact ⟨lt_of_lt_of_le before highest, lt_of_le_of_lt (max_le_max_right 0 earlier) after⟩

theorem occupancy_members {spans : List Span} (admitted : ∀ s ∈ spans, s.Admitted) (t : Ms) :
    occupancy (spans.map (·.buffered rs.buffer)) t = batchAt rs spans t := by
  rw [occupancy, List.countP_map, batchAt]
  refine List.countP_congr fun s given => ?_
  rw [Function.comp_apply, Bool.and_eq_true, decide_eq_true_eq, decide_eq_true_eq,
    ResourceState.footprint_iff (admitted s given).representable, and_iff_right_iff_imp]
  exact rs.occupies_representable wf (admitted s given)

/-- The sweep of a batch passes only if the members fit beside the live allocations. -/
theorem checkBatchCapacity_room {spans : List Span} (admitted : ∀ s ∈ spans, s.Admitted)
    (several : 2 ≤ rs.capacity.toNat) (ok : checkBatchCapacity rs spans now = .ok ()) {t : Ms}
    (covered : ∃ s ∈ spans, rs.occupies s t = true) :
    rs.liveAt now t + batchAt rs spans t ≤ rs.capacity.toNat := by
  obtain ⟨m, inside, covers⟩ := covered
  obtain ⟨lo, least⟩ : ∃ lo, (spans.map (·.start)).min? = some lo :=
    Option.ne_none_iff_exists'.mp fun none => by
      rw [List.min?_eq_none_iff, List.map_eq_nil_iff] at none
      exact List.ne_nil_of_mem inside none
  obtain ⟨hi, most⟩ : ∃ hi, (spans.map fun s => satAdd s.end rs.buffer).max? = some hi :=
    Option.ne_none_iff_exists'.mp fun none => by
      rw [List.max?_eq_none_iff, List.map_eq_nil_iff] at none
      exact List.ne_nil_of_mem inside none
  have lowest : lo ≤ m.start := (List.min?_eq_some_iff.mp least).2 _ (List.mem_map_of_mem inside)
  have highest : satAdd m.end rs.buffer ≤ hi := (List.max?_eq_some_iff.mp most).2 _ (List.mem_map_of_mem inside)
  simp only [checkBatchCapacity, least, most] at ok
  split at ok
  · next empty =>
      have threshold : 2 ≤ min (rs.capacity.toNat + 1) u32Max := by
        simp only [u32Max]
        omega
      have proper : ∀ a ∈ sortByStart (collectActiveAllocsWithBuffer rs ⟨max (satSub lo rs.buffer) 0, hi⟩
          now rs.buffer none ++ spans.map (·.buffered rs.buffer)), a.start < a.end := by
        intro a found
        rcases List.mem_append.mp ((sortByStart_perm _).mem_iff.mp found) with held | new
        · exact collect_proper wf.timeline a held
        · obtain ⟨s, given, rfl⟩ := List.mem_map.mp new
          exact ResourceState.buffered_proper wf.timeline (admitted s given).representable
      have notFull : ¬ min (rs.capacity.toNat + 1) u32Max ≤ occupancy _ t := fun full => by
        obtain ⟨s, found, _⟩ := (covers_saturated threshold proper t).mpr full
        rw [List.isEmpty_iff.mp empty] at found
        cases found
      have held : occupancy (collectActiveAllocsWithBuffer rs ⟨max (satSub lo rs.buffer) 0, hi⟩
          now rs.buffer none) t = rs.othersAt now none t :=
        occupancy_collect wf.timeline (rs.occupies_representable wf (admitted m inside) covers)
          (window_meets wf (admitted m inside) covers lowest highest)
      have new := occupancy_members wf admitted t
      rw [occupancy_perm (sortByStart_perm _), occupancy, List.countP_append] at notFull
      unfold occupancy at held new
      rw [held, new, ResourceState.othersAt_none] at notFull
      omega
  · cases ok

/-- An admitted batch fits beside the live allocations at every instant it occupies. -/
theorem admittedOn_room {e : Engine} {batch : List (Ulid × Span)} (admitted : ∀ m ∈ batch, m.2.Admitted)
    (on : e.AdmittedOn rs batch) {t : Ms} (covered : ∃ s ∈ batch.map (·.2), rs.occupies s t = true) :
    rs.liveAt e.clock t + batchAt rs (batch.map (·.2)) t ≤ rs.capacity.toNat := by
  have positive := capacity_pos wf
  obtain ⟨s, given, covers⟩ := covered
  obtain ⟨m, inside, rfl⟩ := List.mem_map.mp given
  have room : rs.liveAt e.clock t < rs.capacity.toNat := by
    rw [← ResourceState.othersAt_none]
    exact (checkNoConflictExcluding_ok wf (admitted m inside)).mp (on.noConflict m inside) t covers
  by_cases several : 1 < batch.length
  · have together := on.together several
    split at together
    · next one =>
        have apart := checkPairwise_apart wf admitted together t
        have atMostOne : batchAt rs (batch.map (·.2)) t ≤ 1 := by
          rw [batchAt, List.countP_map]
          exact countP_le_one apart
        omega
    · next many =>
        exact checkBatchCapacity_room wf (by simpa using fun s x h => admitted (x, s) h) (by omega) together
          ⟨m.2, given, covers⟩
  · have atMostOne : batchAt rs (batch.map (·.2)) t ≤ 1 :=
      List.countP_le_length.trans (by rw [List.length_map]; omega)
    omega

end

end Conflict

end Deltat
