import Deltat.Instants

/-! # Reads and admission agree

Both the read path and the admission checks come down to what holds at single instants.
What admission accepts is free over its own span, and a footprint that is free, the buffer
behind the span included, is accepted.
-/

namespace Deltat

open Lib Limits Conflict Availability ResourceState

namespace Conflict

variable {rs : ResourceState} {span query : Span} {now : Ms}

/-- Nothing of a span is closed exactly when every instant of it is open. -/
theorem closed_isEmpty_iff {opened : List Span} (ordered : Ordered opened) :
    (subtractIntervals [span] opened).isEmpty = true ↔ ∀ t, span.start ≤ t → t < span.end → Covers opened t := by
  have closed : ∀ t, Covers (subtractIntervals [span] opened) t ↔
      (span.start ≤ t ∧ t < span.end) ∧ ¬ Covers opened t := by
    intro t
    rw [subtractIntervals_covers (List.pairwise_singleton _ _) ordered, covers_cons, or_iff_left covers_nil]
  rw [List.isEmpty_iff]
  constructor
  · intro nothing t started notEnded
    by_contra shut
    have there := (closed t).mpr ⟨⟨started, notEnded⟩, shut⟩
    rw [nothing] at there
    exact covers_nil there
  · intro every
    by_contra something
    obtain ⟨s, inside⟩ := List.exists_mem_of_ne_nil _ something
    have proper := (subtractIntervals_within s inside).1
    obtain ⟨⟨started, notEnded⟩, shut⟩ := (closed s.start).mp ⟨s, inside, le_refl _, proper⟩
    exact shut (every s.start started notEnded)

/-- The rule check passes exactly when every instant of the raw span is open. -/
theorem checkRulesAdmit_iff (timeline : rs.Timeline) (nonBlocking blocking : List Span) (ancestorHasSchedule : Bool)
    (scheduled : rs.hasNonBlockingRule = true ∨ ancestorHasSchedule = true) :
    checkRulesAdmit rs span nonBlocking blocking ancestorHasSchedule = .ok () ↔
      ∀ t, span.start ≤ t → t < span.end →
        (if rs.hasNonBlockingRule then rs.hasRuleAt .nonBlocking t = true else Covers nonBlocking t) ∧
          rs.hasRuleAt .blocking t = false ∧ ¬ Covers blocking t := by
  have base : (if rs.hasNonBlockingRule then (ownRuleSpans rs span).1
      else if ancestorHasSchedule then nonBlocking else [span]) =
      if rs.hasNonBlockingRule then (ownRuleSpans rs span).1 else nonBlocking := by
    rcases scheduled with own | ancestor
    · rw [own]
      rfl
    · rw [ancestor]
      rfl
  unfold checkRulesAdmit
  simp only
  rw [base, ite_eq_left_iff, Bool.not_eq_true, imp_iff_not (by simp), Bool.not_eq_false,
    closed_isEmpty_iff (assembleOpenWindows_ordered _ _ _)]
  apply forall_congr'
  intro t
  apply imp_congr_right
  intro started
  apply imp_congr_right
  intro notEnded
  exact opened_covers timeline nonBlocking blocking started notEnded

/-- The verdict of the rule check depends on the inherited spans only through the instants of
    the span that they cover. -/
theorem checkRulesAdmit_congr {nonBlocking blocking nonBlocking' blocking' : List Span} (ancestorHasSchedule : Bool)
    (same : ∀ t, span.start ≤ t → t < span.end →
      (Covers nonBlocking t ↔ Covers nonBlocking' t) ∧ (Covers blocking t ↔ Covers blocking' t)) :
    checkRulesAdmit rs span nonBlocking blocking ancestorHasSchedule = .ok () ↔
      checkRulesAdmit rs span nonBlocking' blocking' ancestorHasSchedule = .ok () := by
  unfold checkRulesAdmit
  simp only
  rw [ite_eq_left_iff, ite_eq_left_iff, Bool.not_eq_true, Bool.not_eq_true, imp_iff_not (by simp),
    imp_iff_not (by simp), Bool.not_eq_false, Bool.not_eq_false,
    closed_isEmpty_iff (assembleOpenWindows_ordered _ _ _), closed_isEmpty_iff (assembleOpenWindows_ordered _ _ _)]
  apply forall_congr'
  intro t
  apply imp_congr_right
  intro started
  apply imp_congr_right
  intro notEnded
  obtain ⟨opens, closes⟩ := same t started notEnded
  rw [assembleOpenWindows_covers, assembleOpenWindows_covers, closes]
  split
  · rfl
  · split
    · rw [opens]
    · rfl

theorem checkNoConflict_iff (timeline : rs.Timeline) (capacity : rs.capacity ≠ 0) (candidate : span.Representable) :
    checkNoConflict rs span now = .ok () ↔
      ∀ t, t < i64Max → rs.occupies span t = true → rs.liveAt now t < rs.capacity.toNat := by
  have positive : 0 < rs.capacity.toNat := Nat.pos_of_ne_zero fun zero => capacity (UInt32.toNat_inj.mp zero)
  unfold checkNoConflict
  rw [checkNoConflictExcluding_iff timeline candidate positive]
  simp only [othersAt_none]

section Agreement

variable (timeline : rs.Timeline) (capacity : rs.capacity ≠ 0) (candidate : span.Representable)
  {readNonBlocking readBlocking nonBlocking blocking : List Span} {ancestorHasSchedule : Bool}
  (scheduled : rs.hasNonBlockingRule = true ∨ ancestorHasSchedule = true)
  -- Admission collects the inherited rules for the span and a read for its query.
  (same : ∀ t, span.start ≤ t → t < span.end →
    (Covers readNonBlocking t ↔ Covers nonBlocking t) ∧ (Covers readBlocking t ↔ Covers blocking t))
include timeline capacity candidate scheduled same

theorem free_of_accepted (rules : checkRulesAdmit rs span nonBlocking blocking ancestorHasSchedule = .ok ())
    (allocations : checkNoConflict rs span now = .ok ()) (before : query.start ≤ span.start)
    (behind : span.end ≤ query.end) (t : Ms) (started : span.start ≤ t) (notEnded : t < span.end) :
    Covers (availability rs query readNonBlocking readBlocking now) t := by
  have buffer := timeline.buffer
  have range : t < i64Max := lt_of_lt_of_le notEnded candidate.upper
  have occupied : rs.occupies span t = true := occupies_iff.mpr ⟨started, by lia⟩
  have room := (checkNoConflict_iff timeline capacity candidate).mp allocations t range occupied
  have opens := (checkRulesAdmit_iff timeline nonBlocking blocking ancestorHasSchedule scheduled).mp rules t started
    notEnded
  obtain ⟨agreeOpen, agreeBlocked⟩ := same t started notEnded
  apply (availability_covers timeline readNonBlocking readBlocking (before.trans started)
    (lt_of_lt_of_le notEnded behind) range).mpr
  rw [agreeOpen, agreeBlocked]
  exact ⟨opens.1, opens.2.1, opens.2.2, lt_of_lt_of_le room (le_max_left _ _)⟩

theorem accepted_of_free (before : query.start ≤ span.start) (behind : span.end + rs.buffer ≤ query.end)
    (free : ∀ t, span.start ≤ t → t < span.end + rs.buffer →
      Covers (availability rs query readNonBlocking readBlocking now) t) :
    checkRulesAdmit rs span nonBlocking blocking ancestorHasSchedule = .ok () ∧
      checkNoConflict rs span now = .ok () := by
  have buffer := timeline.buffer
  have means : ∀ t, t < i64Max → span.start ≤ t → t < span.end + rs.buffer → _ := fun t range started notEnded =>
    (availability_covers timeline readNonBlocking readBlocking (before.trans started)
      (lt_of_lt_of_le notEnded behind) range).mp (free t started notEnded)
  constructor
  · apply (checkRulesAdmit_iff timeline nonBlocking blocking ancestorHasSchedule scheduled).mpr
    intro t started notEnded
    have opens := means t (lt_of_lt_of_le notEnded candidate.upper) started (by lia)
    obtain ⟨agreeOpen, agreeBlocked⟩ := same t started notEnded
    rw [agreeOpen, agreeBlocked] at opens
    exact ⟨opens.1, opens.2.1, opens.2.2.1⟩
  · apply (checkNoConflict_iff timeline capacity candidate).mpr
    intro t range occupied
    obtain ⟨started, notEnded⟩ := occupies_iff.mp occupied
    have positive : rs.capacity.toNat ≠ 0 := fun zero => capacity (UInt32.toNat_inj.mp zero)
    have room := (means t range started notEnded).2.2.2
    omega

end Agreement

/-- What both checks accept is free over its raw span in every query around it, and what
    is free with its buffer in one query both checks accept. -/
theorem reads_agree_with_admission (timeline : rs.Timeline) (capacity : rs.capacity ≠ 0)
    (candidate : span.Representable) (nonBlocking blocking : List Span) (ancestorHasSchedule : Bool)
    (scheduled : rs.hasNonBlockingRule = true ∨ ancestorHasSchedule = true) (now : Ms) (query : Span) :
    (checkRulesAdmit rs span nonBlocking blocking ancestorHasSchedule = .ok () →
        checkNoConflict rs span now = .ok () → query.start ≤ span.start → span.end ≤ query.end →
        ∀ t, span.start ≤ t → t < span.end → Covers (availability rs query nonBlocking blocking now) t) ∧
      (query.start ≤ span.start → span.end + rs.buffer ≤ query.end →
        (∀ t, span.start ≤ t → t < span.end + rs.buffer →
          Covers (availability rs query nonBlocking blocking now) t) →
        checkRulesAdmit rs span nonBlocking blocking ancestorHasSchedule = .ok () ∧
          checkNoConflict rs span now = .ok ()) :=
  ⟨free_of_accepted timeline capacity candidate scheduled fun _ _ _ => ⟨Iff.rfl, Iff.rfl⟩,
    accepted_of_free timeline capacity candidate scheduled fun _ _ _ => ⟨Iff.rfl, Iff.rfl⟩⟩

/-- Two units with a turnaround of five, open from 0 to 100, one of them booked. -/
def bufferedPair : ResourceState :=
  ⟨1, none, none, 2, some 5, [⟨2, ⟨0, 100⟩, .nonBlocking⟩, ⟨3, ⟨20, 30⟩, .booking none⟩, ⟨4, ⟨25, 40⟩, .hold 1000⟩]⟩

theorem bufferedPair_timeline : bufferedPair.Timeline where
  sorted := by decide
  spans i inside := by
    have checked : ∀ i ∈ bufferedPair.intervals, i.span.start < i.span.end ∧ 0 ≤ i.span.start ∧ i.span.end ≤ i64Max := by
      decide
    obtain ⟨proper, lower, upper⟩ := checked i inside
    exact ⟨proper, lower, upper⟩
  buffer := by decide

/-- The slot whose turnaround ends as the overlap of the booking and the hold begins. -/
theorem bufferedPair_agrees :
    checkRulesAdmit bufferedPair ⟨10, 20⟩ [] [] false = .ok () ∧ checkNoConflict bufferedPair ⟨10, 20⟩ 500 = .ok () ∧
      ∀ t, 10 ≤ t → t < 20 → Covers (availability bufferedPair ⟨5, 25⟩ [] [] 500) t := by
  have agree := @reads_agree_with_admission bufferedPair ⟨10, 20⟩ bufferedPair_timeline (by decide)
    ⟨by decide, by decide, by decide⟩ [] [] false (.inl rfl) 500 ⟨5, 25⟩
  have free : availability bufferedPair ⟨5, 25⟩ [] [] 500 = [⟨5, 25⟩] := by decide
  obtain ⟨rules, allocations⟩ := agree.2 (by decide) (by decide) fun t started notEnded => by
    rw [free]
    exact ⟨_, List.mem_cons_self, (by decide : (5 : Ms) ≤ 10).trans started, notEnded⟩
  exact ⟨rules, allocations, agree.1 rules allocations (by decide) (by decide)⟩

end Conflict

end Deltat
