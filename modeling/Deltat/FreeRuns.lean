import Deltat.Asserts
import Deltat.Instants

/-! # The runs of a read

What merging leaves has gaps between its spans, and subtracting spans of positive length keeps
and adds gaps. So the free time that a read reports comes as maximal runs.
-/

namespace Deltat

open Lib Limits Availability

/-- Proper spans in order, with a gap after each. -/
structure Separate (spans : List Span) : Prop where
  proper : ∀ s ∈ spans, s.start < s.end
  gaps : spans.Pairwise fun a b => a.end < b.start

theorem Separate.nil : Separate [] := ⟨List.forall_mem_nil _, .nil⟩

theorem Separate.singleton {s : Span} (proper : s.start < s.end) : Separate [s] :=
  ⟨List.forall_mem_singleton.mpr proper, List.pairwise_singleton _ _⟩

theorem Separate.append {spans others : List Span} (first : Separate spans) (second : Separate others)
    (between : ∀ a ∈ spans, ∀ b ∈ others, a.end < b.start) : Separate (spans ++ others) where
  proper s inside := (List.mem_append.mp inside).elim (first.proper s) (second.proper s)
  gaps := List.pairwise_append.mpr ⟨first.gaps, second.gaps, between⟩

namespace Availability

/-! ## Gaps -/

theorem mergeFrom_separate {rest : List Span} {last : Span} (ordered : Ordered (last :: rest))
    (proper : ∀ s ∈ last :: rest, s.start < s.end) : Separate (mergeFrom last rest) := by
  induction rest generalizing last with
  | nil => exact .singleton (proper last List.mem_cons_self)
  | cons span rest ih =>
      obtain ⟨ahead, behind⟩ := List.pairwise_cons.mp ordered
      have here := proper last List.mem_cons_self
      have later : ∀ s ∈ span :: rest, s.start < s.end := fun s inside => proper s (List.mem_cons_of_mem _ inside)
      unfold mergeFrom
      split
      · have extended : Ordered (⟨last.start, max last.end span.end⟩ :: rest) :=
          .cons (fun s inside => ahead s (List.mem_cons_of_mem _ inside)) behind.of_cons
        apply ih extended
        intro s inside
        rcases List.mem_cons.mp inside with same | inside
        · rw [same]
          exact lt_of_lt_of_le here (le_max_left _ _)
        · exact later s (List.mem_cons_of_mem _ inside)
      · next gap =>
          have begins := (mergeFrom_apart behind).1
          apply Separate.append (.singleton here) (ih behind later)
          intro a first b inside
          rw [List.mem_singleton.mp first]
          have after := begins b inside
          lia

theorem mergeOverlapping_separate {spans : List Span} (ordered : Ordered spans)
    (proper : ∀ s ∈ spans, s.start < s.end) : Separate (mergeOverlapping spans) := by
  cases spans with
  | nil => exact .nil
  | cons span rest => exact mergeFrom_separate ordered proper

/-- A removal of positive length leaves a gap. -/
theorem carve_separate {removals : List Span} {low high : Ms} (proper : ∀ r ∈ removals, r.start < r.end) :
    Separate (carve low high removals) := by
  induction removals generalizing low with
  | nil =>
      unfold carve
      split
      · next rest => exact .singleton rest
      · exact .nil
  | cons r rest ih =>
      have positive := proper r List.mem_cons_self
      have others := fun low => @ih low fun s inside => proper s (List.mem_cons_of_mem _ inside)
      unfold carve
      split
      · simp only
        split
        · next left =>
            apply Separate.append (.singleton left) (others _)
            intro a first b inside
            rw [List.mem_singleton.mp first]
            have after := (carve_within b inside).1
            lia
        · exact others _
      · split
        · next whole => exact .singleton whole
        · exact .nil

theorem subtractIntervals_separate {base removals : List Span} (separate : Separate base)
    (proper : ∀ r ∈ removals, r.start < r.end) : Separate (subtractIntervals base removals) := by
  induction base generalizing removals with
  | nil => exact .nil
  | cons b base ih =>
      obtain ⟨ahead, behind⟩ := List.pairwise_cons.mp separate.gaps
      have left : ∀ r ∈ removals.dropWhile fun r => decide (r.end ≤ b.start), r.start < r.end := fun r inside =>
        proper r ((List.dropWhile_sublist _).subset inside)
      have rest : Separate base := ⟨fun s inside => separate.proper s (List.mem_cons_of_mem _ inside), behind⟩
      apply Separate.append (carve_separate left) (ih rest left)
      intro s first s' other
      have within := (carve_within s first).2.2
      obtain ⟨_, b', inside, after⟩ := subtractIntervals_within s' other
      have gap := ahead b' inside
      lia

theorem sortByStart_proper {spans : List Span} (proper : ∀ s ∈ spans, s.start < s.end) :
    ∀ s ∈ sortByStart spans, s.start < s.end := fun s inside =>
  proper s ((sortByStart_perm spans).mem_iff.mp inside)

theorem assembleOpenWindows_separate {base ownBlocking inheritedBlocking : List Span}
    (opens : ∀ s ∈ base, s.start < s.end) (own : ∀ s ∈ ownBlocking, s.start < s.end)
    (inherited : ∀ s ∈ inheritedBlocking, s.start < s.end) :
    Separate (assembleOpenWindows base ownBlocking inheritedBlocking) := by
  have merged := mergeOverlapping_separate (sortByStart_ordered base) (sortByStart_proper opens)
  unfold assembleOpenWindows
  simp only
  split
  · exact merged
  · apply subtractIntervals_separate merged
    apply sortByStart_proper
    intro s inside
    exact (List.mem_append.mp inside).elim (own s) (inherited s)

end Availability

/-! ## What the assertions leave -/

namespace Asserting

theorem newSpan_iff {first last : Ms} {s : Span} :
    newSpan first last = some s ↔ first < last ∧ s = ⟨first, last⟩ := by
  unfold newSpan
  split
  · next proper => simp [proper, eq_comm]
  · next improper => simp [improper]

theorem newSpan_of {first last : Ms} (proper : first < last) : newSpan first last = some ⟨first, last⟩ :=
  newSpan_iff.mpr ⟨proper, rfl⟩

/-- A loop of assertions that all pass. -/
theorem mapM_eq {α β : Type} {xs : List α} {f : α → Option β} {g : α → β} (passes : ∀ x ∈ xs, f x = some (g x)) :
    xs.mapM f = some (xs.map g) := by
  induction xs with
  | nil => rfl
  | cons x rest ih =>
      have later := ih fun y inRest => passes y (List.mem_cons_of_mem _ inRest)
      rw [List.mapM_cons, passes x List.mem_cons_self, later]
      rfl

/-- A loop of assertions gives what the loop without them does. -/
theorem of_mapM {α β : Type} {xs : List α} {f : α → Option β} {g : α → β} (sound : ∀ x y, f x = some y → y = g x)
    {ys : List β} (passed : xs.mapM f = some ys) : ys = xs.map g := by
  induction xs generalizing ys with
  | nil =>
      cases passed
      rfl
  | cons x rest ih =>
      rw [List.mapM_cons] at passed
      obtain ⟨y, first, passed⟩ := Option.bind_eq_some_iff.mp passed
      obtain ⟨later, others, same⟩ := Option.bind_eq_some_iff.mp passed
      cases same
      rw [List.map_cons, sound x y first, ih others]

theorem clamp_sound {query : Span} (i : Interval) (s : Span) (passed : clamp query i = some s) :
    s = ⟨max i.span.start query.start, min i.span.end query.end⟩ :=
  (newSpan_iff.mp passed).2

theorem buffered_sound (buffer : Ms) (i : Interval) (s : Span) (passed : buffered i.span buffer = some s) :
    s = i.span.buffered buffer :=
  (newSpan_iff.mp passed).2

theorem ownRuleSpans_sound {rs : ResourceState} {query : Span} {own : List Span × List Span}
    (passed : ownRuleSpans rs query = some own) : own = Availability.ownRuleSpans rs query := by
  obtain ⟨nonBlocking, opens, passed⟩ := Option.bind_eq_some_iff.mp passed
  obtain ⟨blocking, closes, same⟩ := Option.bind_eq_some_iff.mp passed
  cases same
  rw [of_mapM clamp_sound opens, of_mapM clamp_sound closes]
  rfl

theorem computeSaturatedSpans_sound {allocs spans : List Span} {capacity : Nat}
    (passed : computeSaturatedSpans allocs capacity = some spans) :
    spans = Availability.computeSaturatedSpans allocs capacity := by
  unfold computeSaturatedSpans at passed
  simp only at passed
  split at passed
  · exact (Option.some.inj passed).symm
  · split at passed
    · exact (Option.some.inj passed).symm
    · cases passed

theorem subtractActive_sound {free active left : List Span} {capacity : Nat}
    (passed : subtractActive free active capacity = some left) :
    left = if active.isEmpty then free
      else if capacity ≤ 1 then subtractIntervals free (sortByStart active)
      else if (Availability.computeSaturatedSpans (sortByStart active) capacity).isEmpty then free
      else subtractIntervals free (Availability.computeSaturatedSpans (sortByStart active) capacity) := by
  unfold subtractActive at passed
  split at passed
  · next nobody =>
      rw [if_pos nobody]
      exact (Option.some.inj passed).symm
  · next somebody =>
      rw [if_neg somebody]
      split at passed
      · next one =>
          rw [if_pos one]
          exact (Option.some.inj passed).symm
      · next several =>
          rw [if_neg several]
          obtain ⟨saturated, swept, same⟩ := Option.bind_eq_some_iff.mp passed
          obtain rfl := computeSaturatedSpans_sound swept
          exact (Option.some.inj same).symm

/-- A read that does not panic is the read without its assertions. -/
theorem availability_sound {rs : ResourceState} {query : Span} {nonBlocking blocking free : List Span} {now : Ms}
    (passed : availability rs query nonBlocking blocking now = some free) :
    free = Availability.availability rs query nonBlocking blocking now := by
  obtain ⟨own, rules, passed⟩ := Option.bind_eq_some_iff.mp passed
  obtain ⟨scan, window, passed⟩ := Option.bind_eq_some_iff.mp passed
  obtain ⟨active, footprints, passed⟩ := Option.bind_eq_some_iff.mp passed
  obtain rfl := ownRuleSpans_sound rules
  obtain rfl := (newSpan_iff.mp window).2
  obtain rfl := of_mapM (buffered_sound rs.buffer) footprints
  exact subtractActive_sound passed

end Asserting

namespace ResourceState

/-- Sorted intervals with proper 64-bit spans, anywhere in time, and a buffer that is a duration. -/
structure Orderly (rs : ResourceState) : Prop where
  sorted : rs.intervals.Pairwise fun a b => a.span.start ≤ b.span.start
  proper : ∀ i ∈ rs.intervals, i.span.start < i.span.end
  upper : ∀ i ∈ rs.intervals, i.span.end ≤ i64Max
  buffer : 0 ≤ rs.buffer

theorem Timeline.orderly {rs : ResourceState} (timeline : rs.Timeline) : rs.Orderly where
  sorted := timeline.sorted
  proper i inside := (timeline.spans i inside).proper
  upper i inside := (timeline.spans i inside).upper
  buffer := timeline.buffer

/-- A state on which no assertion of a read or of a check fails: sorted intervals with proper
    64-bit spans, no more of them than a sweep can count, and a buffer that is a duration. -/
structure Calm (rs : ResourceState) : Prop where
  sorted : rs.intervals.Pairwise fun a b => a.span.start ≤ b.span.start
  proper : ∀ i ∈ rs.intervals, i.span.start < i.span.end
  upper : ∀ i ∈ rs.intervals, i.span.end ≤ i64Max
  buffer : 0 ≤ rs.buffer
  few : rs.intervals.length ≤ u32Max

theorem Orderly.calm {rs : ResourceState} (orderly : rs.Orderly) (few : rs.intervals.length ≤ u32Max) : rs.Calm where
  sorted := orderly.sorted
  proper := orderly.proper
  upper := orderly.upper
  buffer := orderly.buffer
  few := few

theorem Calm.orderly {rs : ResourceState} (calm : rs.Calm) : rs.Orderly :=
  ⟨calm.sorted, calm.proper, calm.upper, calm.buffer⟩

theorem overlapping_sublist (rs : ResourceState) (query : Span) : (rs.overlapping query).Sublist rs.intervals :=
  (List.filter_sublist).trans (List.take_sublist _ _)

theorem mem_of_overlapping {rs : ResourceState} {query : Span} {i : Interval} (met : i ∈ rs.overlapping query) :
    i ∈ rs.intervals :=
  (overlapping_sublist rs query).subset met

variable {rs : ResourceState}

/-- Clamped to a query that it meets, an interval is a proper span. -/
theorem Orderly.clamp_proper (orderly : rs.Orderly) {query : Span} (proper : query.start < query.end) {i : Interval}
    (met : i ∈ rs.overlapping query) : max i.span.start query.start < min i.span.end query.end := by
  have positive := orderly.proper i (mem_of_overlapping met)
  rw [overlapping_eq orderly.sorted] at met
  have meets := (List.mem_filter.mp met).2
  simp only [Bool.and_eq_true, decide_eq_true_eq] at meets
  lia

/-- The footprints of intervals that meet a window are proper spans. -/
theorem Orderly.footprints_proper (orderly : rs.Orderly) (keep : Interval → Bool) (window : Span) :
    ∀ a ∈ ((rs.overlapping window).filter keep).map (·.span.buffered rs.buffer), a.start < a.end := by
  intro a inside
  obtain ⟨i, found, rfl⟩ := List.mem_map.mp inside
  have held := mem_of_overlapping (List.mem_filter.mp found).1
  exact footprint_proper orderly.buffer (orderly.proper i held) (orderly.upper i held)

end ResourceState

namespace Asserting

variable {rs : ResourceState} {query : Span} {nonBlocking blocking : List Span} {now : Ms}

theorem clamp_returns (calm : rs.Calm) (proper : query.start < query.end) {i : Interval} (met : i ∈ rs.overlapping query) :
    clamp query i = some ⟨max i.span.start query.start, min i.span.end query.end⟩ :=
  newSpan_of (calm.orderly.clamp_proper proper met)

theorem buffered_returns {buffer : Ms} (duration : 0 ≤ buffer) {s : Span} (proper : s.start < s.end)
    (upper : s.end ≤ i64Max) : buffered s buffer = some (s.buffered buffer) :=
  newSpan_of (ResourceState.footprint_proper duration proper upper)

theorem ownRuleSpans_returns (calm : rs.Calm) (proper : query.start < query.end) :
    ownRuleSpans rs query = some (Availability.ownRuleSpans rs query) := by
  have each : ∀ kind : IntervalKind, ((rs.overlapping query).filter (·.kind = kind)).mapM (clamp query) =
      some (((rs.overlapping query).filter (·.kind = kind)).map fun i =>
        ⟨max i.span.start query.start, min i.span.end query.end⟩) := fun kind =>
    mapM_eq fun i inside => clamp_returns calm proper (List.mem_filter.mp inside).1
  unfold ownRuleSpans
  simp only [each]
  rfl

theorem computeSaturatedSpans_returns {allocs : List Span} (capacity : Nat) (proper : ∀ a ∈ allocs, a.start < a.end)
    (few : allocs.length ≤ u32Max) :
    computeSaturatedSpans allocs capacity = some (Availability.computeSaturatedSpans allocs capacity) := by
  unfold computeSaturatedSpans
  have counts := @Sweep.counted_endpoints Ms _ u32Max (allocs.map fun a => (a.start, a.end)) (by simpa using proper)
    (by simpa using few)
  simp only [counts, if_true, ite_self]

theorem subtractActive_returns {free active : List Span} (capacity : Nat) (proper : ∀ a ∈ active, a.start < a.end)
    (few : active.length ≤ u32Max) : (subtractActive free active capacity).isSome = true := by
  have swept := computeSaturatedSpans_returns capacity (Availability.sortByStart_proper proper)
    ((sortByStart_perm active).length_eq.trans_le few)
  unfold subtractActive
  split
  · rfl
  · split
    · rfl
    · rw [swept]
      rfl

/-- On such a state a read returns for every query that ends after the epoch. -/
theorem availability_returns (calm : rs.Calm) (proper : query.start < query.end) (after : 0 < query.end) :
    availability rs query nonBlocking blocking now = some (Availability.availability rs query nonBlocking blocking now) := by
  have duration := calm.buffer
  have scan : newSpan (max (satSub query.start rs.buffer) 0) query.end =
      some ⟨max (satSub query.start rs.buffer) 0, query.end⟩ := by
    apply newSpan_of
    simp only [satSub, i64Max, i64Min]
    lia
  have footprints : ∀ keep : Interval → Bool, ∀ window : Span,
      ((rs.overlapping window).filter keep).mapM (fun i => buffered i.span rs.buffer) =
        some (((rs.overlapping window).filter keep).map (·.span.buffered rs.buffer)) := fun keep window =>
    mapM_eq fun i inside =>
      have held := ResourceState.mem_of_overlapping (List.mem_filter.mp inside).1
      buffered_returns duration (calm.proper i held) (calm.upper i held)
  have returned : (availability rs query nonBlocking blocking now).isSome = true := by
    unfold availability
    simp only [ownRuleSpans_returns calm proper, scan, footprints, Option.bind_eq_bind, Option.bind_some]
    apply subtractActive_returns
    · exact calm.orderly.footprints_proper _ _
    · rw [List.length_map]
      exact (List.filter_sublist.trans (ResourceState.overlapping_sublist rs _)).length_le.trans calm.few
  obtain ⟨free, some'⟩ := Option.isSome_iff_exists.mp returned
  rw [some', availability_sound some']

/-- A query that ends by the epoch panics: its scan is no proper span. -/
theorem availability_before (ended : query.end ≤ 0) : availability rs query nonBlocking blocking now = none := by
  have improper : newSpan (max (satSub query.start rs.buffer) 0) query.end = none := by
    apply if_neg
    lia
  unfold availability
  simp only [improper]
  cases ownRuleSpans rs query <;> rfl

end Asserting

/-! ## The answer of a read -/

namespace ResourceState

variable {rs : ResourceState} {query : Span} {nonBlocking blocking : List Span} {now : Ms}

theorem clamped_proper (orderly : rs.Orderly) (proper : query.start < query.end) (kind : IntervalKind) :
    ∀ s ∈ ((rs.overlapping query).filter (·.kind = kind)).map fun i =>
      (⟨max i.span.start query.start, min i.span.end query.end⟩ : Span), s.start < s.end := by
  intro s inside
  obtain ⟨i, found, rfl⟩ := List.mem_map.mp inside
  exact orderly.clamp_proper proper (List.mem_filter.mp found).1

/-- The free time of a read comes as runs with gaps between them. -/
theorem availability_separate (orderly : rs.Orderly) (proper : query.start < query.end)
    (opens : ∀ s ∈ nonBlocking, s.start < s.end) (closes : ∀ s ∈ blocking, s.start < s.end) :
    Separate (availability rs query nonBlocking blocking now) := by
  have base : ∀ s ∈ if rs.hasNonBlockingRule then (ownRuleSpans rs query).1 else nonBlocking, s.start < s.end := by
    split
    · exact clamped_proper orderly proper .nonBlocking
    · exact opens
  have free := assembleOpenWindows_separate base (clamped_proper orderly proper .blocking) closes
  unfold availability
  simp only
  split
  · exact free
  · split
    · exact subtractIntervals_separate free (sortByStart_proper (orderly.footprints_proper _ _))
    · next several =>
        split
        · exact free
        · exact subtractIntervals_separate free (saturated_proper (Nat.lt_of_not_le several))

/-- The runs lie inside the query: their first and last instants are free. -/
theorem availability_within (orderly : rs.Orderly) (proper : query.start < query.end)
    (opens : ∀ s ∈ nonBlocking, query.start ≤ s.start ∧ s.start < s.end ∧ s.end ≤ query.end)
    (closes : ∀ s ∈ blocking, s.start < s.end) :
    ∀ s ∈ availability rs query nonBlocking blocking now, query.start ≤ s.start ∧ s.end ≤ query.end := by
  intro s inside
  have positive := (availability_separate orderly proper (fun s given => (opens s given).2.1) closes).proper s inside
  have range : ∀ t, s.start ≤ t → t < s.end → query.start ≤ t ∧ t < query.end := by
    intro t started notEnded
    have based := covers_base_of_availability ⟨s, inside, started, notEnded⟩
    split at based
    · exact clamped_within based
    · obtain ⟨given, found, lower, upper⟩ := based
      obtain ⟨first, _, last⟩ := opens given found
      exact ⟨first.trans lower, lt_of_lt_of_le upper last⟩
  have first := range s.start (le_refl _) positive
  have last := range (s.end - 1) (by lia) (by lia)
  exact ⟨first.1, by lia⟩

/-- A read answers every query that ends after the epoch, as long as the sweep can count the
    intervals, and panics at any other. Its answer is the free time of the query, instant by
    instant, as maximal runs. -/
theorem availability_exact (timeline : rs.Timeline) (proper : query.start < query.end) (range : query.end ≤ i64Max)
    (opens : ∀ s ∈ nonBlocking, query.start ≤ s.start ∧ s.start < s.end ∧ s.end ≤ query.end)
    (closes : ∀ s ∈ blocking, query.start ≤ s.start ∧ s.start < s.end ∧ s.end ≤ query.end) :
    (rs.intervals.length ≤ u32Max →
      ((Asserting.availability rs query nonBlocking blocking now).isSome = true ↔ 0 < query.end)) ∧
    ∀ free, Asserting.availability rs query nonBlocking blocking now = some free →
      (∀ t, query.start ≤ t → t < query.end → (Covers free t ↔
        (if rs.hasNonBlockingRule then rs.hasRuleAt .nonBlocking t = true else Covers nonBlocking t) ∧
          rs.hasRuleAt .blocking t = false ∧ ¬ Covers blocking t ∧ rs.liveAt now t < max rs.capacity.toNat 1)) ∧
      Separate free ∧ ∀ s ∈ free, query.start ≤ s.start ∧ s.end ≤ query.end := by
  have closing : ∀ s ∈ blocking, s.start < s.end := fun s given => (closes s given).2.1
  constructor
  · intro few
    constructor
    · intro answers
      apply Int.lt_of_not_ge
      intro ended
      rw [Asserting.availability_before ended] at answers
      cases answers
    · intro after
      rw [Asserting.availability_returns (timeline.orderly.calm few) proper after]
      rfl
  · intro free answer
    obtain rfl := Asserting.availability_sound answer
    refine ⟨fun t started notEnded => ?_, ?_, availability_within timeline.orderly proper opens closing⟩
    · exact availability_covers timeline nonBlocking blocking started notEnded (lt_of_lt_of_le notEnded range)
    · exact availability_separate timeline.orderly proper (fun s given => (opens s given).2.1) closing

/-- A room open from 0 to 100 with two seats, both taken from 20 to 30 and one from 30 on. -/
def twoSeats : ResourceState :=
  ⟨1, none, none, 2, some 5, [⟨5, ⟨0, 100⟩, .nonBlocking⟩, ⟨7, ⟨20, 30⟩, .booking none⟩, ⟨8, ⟨20, 60⟩, .hold 1000⟩]⟩

theorem twoSeats_timeline : twoSeats.Timeline := by
  refine ⟨by decide, fun i inside => ?_, by decide⟩
  simp only [twoSeats, List.mem_cons, List.not_mem_nil, or_false] at inside
  rcases inside with rfl | rfl | rfl <;> exact ⟨by decide, by decide, by decide⟩

theorem twoSeats_free : (Asserting.availability twoSeats ⟨10, 90⟩ [] [⟨70, 80⟩] 0).isSome = true ∧
    ∀ free, Asserting.availability twoSeats ⟨10, 90⟩ [] [⟨70, 80⟩] 0 = some free → Separate free := by
  have exact := @availability_exact twoSeats ⟨10, 90⟩ [] [⟨70, 80⟩] 0 twoSeats_timeline (by decide) (by decide)
    (List.forall_mem_nil _) (List.forall_mem_singleton.mpr ⟨by decide, by decide, by decide⟩)
  exact ⟨(exact.1 (by decide)).mpr (by decide), fun free answer => (exact.2 free answer).2.1⟩

example : availability twoSeats ⟨10, 90⟩ [] [⟨70, 80⟩] 0 = [⟨10, 20⟩, ⟨35, 70⟩, ⟨80, 90⟩] := by decide +kernel

/-- A read of a query before the epoch has no answer, on whatever timeline. -/
theorem before_epoch_panics : twoSeats.Timeline ∧ ∀ free, Asserting.availability twoSeats ⟨-20, -10⟩ [] [] 0 ≠ some free := by
  refine ⟨twoSeats_timeline, fun free => ?_⟩
  rw [Asserting.availability_before (by decide)]
  exact Option.some_ne_none free ∘ Eq.symm

end ResourceState

end Deltat
