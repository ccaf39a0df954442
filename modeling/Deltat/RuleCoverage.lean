import Deltat.CombinedAvailability
import Deltat.ReadsAndAdmission

/-! # Rules under a parent

A rule that opens time on a child must lie in what its parent has open. The check reads the
parent over the whole span of the rule, through the limit on the width of a read.
-/

namespace Deltat

open Lib Lib.Outcome Limits Availability Conflict

theorem Separate.ordered {spans : List Span} (separate : Separate spans) : Ordered spans := by
  apply separate.gaps.imp_of_mem
  intro a b inside _ gap
  have positive := separate.proper a inside
  lia

namespace Engine

variable {e : Engine}

/-- An instant that the availability of a resource contains. -/
def FreeAt (e : Engine) (r : Ulid) (t : Ms) : Prop :=
  ∃ free, e.store.computeAvailability e.clock r t (t + 1) none = .ok free ∧ Covers free t

/-- A rule is accepted when every instant of it is free in the parent, and else refused with the maximal parts
    that are not. -/
structure JudgedByParent (e : Engine) (parentId : Ulid) (span : Span) (result : Except EngineError Unit) : Prop where
  accepted : result = .ok () ↔ ∀ t, span.start ≤ t → t < span.end → e.FreeAt parentId t
  refused : (∃ t, span.start ≤ t ∧ t < span.end ∧ ¬ e.FreeAt parentId t) → ∃ uncovered,
    result = .error (.notCoveredByParent span uncovered) ∧ Separate uncovered ∧
      ∀ t, Covers uncovered t ↔ (span.start ≤ t ∧ t < span.end) ∧ ¬ e.FreeAt parentId t

section Parent

variable {p r : Ulid} {span : Span} {parent guard : ResourceState}

theorem validateSpan_bounds (valid : validateSpan span = .ok ()) :
    minValidTimestampMs ≤ span.start ∧ span.end ≤ maxValidTimestampMs := by
  unfold validateSpan at valid
  split at valid
  · cases valid
  · next inside =>
      simp only [not_or, Int.not_lt] at inside
      exact inside

/-- A read of the parent is free where the parent is. -/
theorem covers_iff_freeAt (tree : e.store.WellFormedTree) (present : e.store.getResource p = some parent) {free : List Span}
    (read : e.store.computeAvailability e.clock p span.start span.end none = .ok free) {t : Ms} (started : span.start ≤ t)
    (notEnded : t < span.end) : Covers free t ↔ e.FreeAt p t := by
  obtain ⟨line, lineage, _⟩ := tree.ancestors p parent present
  obtain ⟨_, _, agree⟩ := InMemoryStore.availability_at_every_instant tree present lineage e.clock
  constructor
  · intro covered
    have narrow : satSub (t + 1) t ≤ maxQueryWindowMs := by
      have wide : 1 ≤ maxQueryWindowMs := by decide
      have least : i64Min ≤ 1 := by decide
      simp only [satSub]
      lia
    obtain ⟨here, instant⟩ := InMemoryStore.computeAvailability_answers tree e.clock narrow p
    exact ⟨here, instant, (agree _ _ _ _ _ _ read instant t started notEnded le_rfl (lt_add_one t)).mp covered⟩
  · rintro ⟨here, instant, covered⟩
    exact (agree _ _ _ _ _ _ read instant t started notEnded le_rfl (lt_add_one t)).mpr covered

/-- The read of the parent goes through for spans within the limit of a read, and for no others. -/
theorem checkParentCoverage_judged (tree : e.store.WellFormedTree) (present : e.store.getResource p = some parent)
    (narrow : span.durationMs ≤ maxQueryWindowMs) : e.JudgedByParent p span (e.checkParentCoverage p span) := by
  have width : satSub span.end span.start ≤ maxQueryWindowMs := by
    have least : i64Min ≤ maxQueryWindowMs := by decide
    simp only [satSub, Span.durationMs] at narrow ⊢
    lia
  obtain ⟨free, read⟩ := InMemoryStore.computeAvailability_answers tree e.clock width p
  have separate := (InMemoryStore.computeAvailability_runs tree read).1
  have covers : ∀ t, span.start ≤ t → t < span.end → (Covers free t ↔ e.FreeAt p t) := fun t started notEnded =>
    covers_iff_freeAt tree present read started notEnded
  have whole : (subtractIntervals [span] free).isEmpty = true ↔ ∀ t, span.start ≤ t → t < span.end → e.FreeAt p t := by
    rw [closed_isEmpty_iff separate.ordered]
    exact forall_congr' fun t => forall_congr' fun started => forall_congr' fun notEnded => covers t started notEnded
  have outcome : e.checkParentCoverage p span =
      rejectIf (!(subtractIntervals [span] free).isEmpty) (.notCoveredByParent span (subtractIntervals [span] free)) := by
    unfold checkParentCoverage
    rw [read]
    rfl
  rw [outcome]
  constructor
  case accepted =>
    rw [← whole]
    unfold rejectIf
    cases (subtractIntervals [span] free).isEmpty <;> simp
  case refused =>
    rintro ⟨t, started, notEnded, busy⟩
    have part : (subtractIntervals [span] free).isEmpty = false := by
      rw [← Bool.not_eq_true, whole]
      exact fun all => busy (all t started notEnded)
    refine ⟨subtractIntervals [span] free, by rw [part]; rfl, ?_, fun t => ?_⟩
    · exact subtractIntervals_separate (.singleton (started.trans_lt notEnded)) separate.proper
    · rw [subtractIntervals_covers (List.pairwise_singleton _ _) separate.ordered, covers_cons, or_iff_left covers_nil]
      exact and_congr_right fun inside => not_congr (covers t inside.1 inside.2)

theorem checkParentCoverage_wide (valid : validateSpan span = .ok ())
    (proper : span.start < span.end) (wide : maxQueryWindowMs < span.durationMs) :
    e.checkParentCoverage p span = .error (.limitExceeded "query window too wide") := by
  obtain ⟨lower, upper⟩ := validateSpan_bounds valid
  have long : maxQueryWindowMs ≤ i64Max ∧ maxValidTimestampMs ≤ i64Max ∧ i64Min ≤ 0 ∧ 0 ≤ minValidTimestampMs := by decide
  have started : max minValidTimestampMs (min maxValidTimestampMs span.start) = span.start := by lia
  have ended : max minValidTimestampMs (min maxValidTimestampMs span.end) = span.end := by lia
  have beyond : satSub span.end span.start > maxQueryWindowMs := by
    simp only [satSub, Span.durationMs] at wide ⊢
    lia
  unfold checkParentCoverage InMemoryStore.computeAvailability
  simp only [started, ended]
  rw [if_neg (Int.not_le.mpr proper), if_pos beyond]
  rfl

theorem checkRuleCoverage_under (linked : e.store.getParent r = some p) :
    e.checkRuleCoverage r span false = e.checkParentCoverage p span := by
  simp [checkRuleCoverage, linked]

/-- A new rule with a fresh id, where there is room, is judged by the parent. -/
theorem addRule_judged (h : e.Healthy) (valid : validateSpan span = .ok ()) (here : e.store.getResource r = some guard)
    (linked : e.store.getParent r = some p) {id : Ulid} (fresh : e.store.getResourceForEntity id = none)
    (room : guard.intervals.length < maxIntervalsPerResource) :
    (exec (addRule id r span false) e).1 = e.checkParentCoverage p span := by
  have checked : e.checkAddRule id r span false = e.checkParentCoverage p span := by
    have found : e.resource r = .ok guard := by rw [resource, here]
    have unused : e.rejectReusedId id = .ok () := by rw [rejectReusedId, fresh]
    have limit : checkIntervalLimit guard = .ok () := if_neg (Nat.not_le.mpr room)
    unfold checkAddRule
    rw [valid, found, checkRuleCoverage_under linked, unused]
    cases e.checkParentCoverage p span with
    | error error => rfl
    | ok u => exact limit
  unfold addRule
  rw [exec_bind_ok (exec_get e), checked]
  cases e.checkParentCoverage p span with
  | error error => rfl
  | ok u =>
      rw [exec_bind_ok (exec_check _ _), exec_persistAndApply h.running h.noFault]

/-- A rule moved to another span is judged by the parent too. -/
theorem updateRule_judged (h : e.Healthy) (valid : validateSpan span = .ok ()) (here : e.store.getResource r = some guard)
    (linked : e.store.getParent r = some p) {id : Ulid} (mapped : e.store.getResourceForEntity id = some r) {rule : Interval}
    (found : findIntervalOfKind guard id IntervalKind.isRule = .ok rule) :
    (exec (updateRule id span false) e).1 = e.checkParentCoverage p span := by
  have checked : e.checkUpdateRule id span false = (e.checkParentCoverage p span).map fun _ => r := by
    have guarded : e.resource r = .ok guard := by rw [resource, here]
    unfold checkUpdateRule
    rw [valid, mapped]
    simp only [checkRuleCoverage_under linked, guarded]
    cases e.checkParentCoverage p span with
    | error error => rfl
    | ok u =>
        have ended : (findIntervalOfKind guard id IntervalKind.isRule >>= fun _ => pure r) = (.ok r : Except EngineError Ulid) := by
          rw [found]
          rfl
        exact ended
  unfold updateRule
  rw [exec_bind_ok (exec_get e), checked]
  cases e.checkParentCoverage p span with
  | error error => rfl
  | ok u =>
      have passed : ((Except.ok u : Except EngineError Unit).map fun _ => r) = .ok r := rfl
      rw [passed, exec_bind_ok (exec_check _ _), exec_persistAndApply h.running h.noFault]

/-- A refusal for the width of a read judges nothing. -/
theorem not_judged_wide {result : Except EngineError Unit} (refused : result = .error (.limitExceeded "query window too wide")) :
    ¬ e.JudgedByParent p span result := by
  intro judged
  by_cases covered : ∀ t, span.start ≤ t → t < span.end → e.FreeAt p t
  · have accepted := judged.accepted.mpr covered
    rw [refused] at accepted
    cases accepted
  · simp only [not_forall] at covered
    obtain ⟨t, started, notEnded, busy⟩ := covered
    obtain ⟨uncovered, answer, _⟩ := judged.refused ⟨t, started, notEnded, busy⟩
    rw [refused] at answer
    cases answer

/-- A child may open exactly the time that its parent has open, for spans no wider than a read may be. -/
theorem child_rule_judged_iff (h : e.Healthy) (tree : e.store.WellFormedTree) (valid : validateSpan span = .ok ())
    (proper : span.start < span.end) (here : e.store.getResource r = some guard) (linked : e.store.getParent r = some p) :
    (∀ id, e.store.getResourceForEntity id = none → guard.intervals.length < maxIntervalsPerResource →
        (e.JudgedByParent p span (exec (addRule id r span false) e).1 ↔ span.durationMs ≤ maxQueryWindowMs)) ∧
      ∀ id rule, e.store.getResourceForEntity id = some r → findIntervalOfKind guard id IntervalKind.isRule = .ok rule →
        (e.JudgedByParent p span (exec (updateRule id span false) e).1 ↔ span.durationMs ≤ maxQueryWindowMs) := by
  obtain ⟨line, lineage, _⟩ := tree.ancestors r guard here
  have parent : ∃ parent, e.store.getResource p = some parent := by
    cases lineage with
    | root top => rw [linked] at top; cases top
    | under linked' present _ =>
        rw [linked] at linked'
        cases linked'
        exact ⟨_, present⟩
  obtain ⟨parent, present⟩ := parent
  have judged : e.JudgedByParent p span (e.checkParentCoverage p span) ↔ span.durationMs ≤ maxQueryWindowMs := by
    constructor
    · intro judged
      by_contra wide
      exact not_judged_wide (checkParentCoverage_wide valid proper (Int.not_le.mp wide)) judged
    · exact checkParentCoverage_judged tree present
  constructor
  · intro id fresh room
    rw [addRule_judged h valid here linked fresh room, judged]
  · intro id rule mapped found
    rw [updateRule_judged h valid here linked mapped found, judged]

end Parent

theorem season_valid : (⟨0, 100 * 86400000⟩ : Span).Valid := by decide

/-- A hundred days. -/
def season : ProperSpan := ⟨⟨0, 100 * 86400000⟩, season_valid⟩

/-- A building open for a season, with a room. -/
def openSeason : Engine :=
  (((start 0 1000).next (.op (.createResource 1 none none 1 none))).next (.op (.addRule 10 1 season false))).next
    (.op (.createResource 2 (some 1) none 1 none))

theorem openSeason_reachable : Reachable (fun _ _ => True) openSeason :=
  .step _ (.step _ (.step _ (.start 0 1000) trivial trivial) trivial trivial) trivial trivial

theorem openSeason_room : openSeason.store.getResource 2 = some (.new 2 (some 1) none 1 none) := by decide

theorem openSeason_parent : openSeason.store.getParent 2 = some 1 := by decide

theorem openSeason_fresh : openSeason.store.getResourceForEntity 20 = none := by decide

theorem openSeason_free {t : Ms} (started : 0 ≤ t) (notEnded : t < 100 * 86400000) : openSeason.FreeAt 1 t := by
  have tree := openSeason_reachable.wellFormedTree
  have present : openSeason.store.getResource 1 =
      some ⟨1, none, none, 1, none, [⟨10, ⟨0, 100 * 86400000⟩, .nonBlocking⟩]⟩ := by decide
  have first : openSeason.store.computeAvailability openSeason.clock 1 0 (90 * 86400000) none =
      .ok [⟨0, 90 * 86400000⟩] := by rfl
  have last : openSeason.store.computeAvailability openSeason.clock 1 (10 * 86400000) (100 * 86400000) none =
      .ok [⟨10 * 86400000, 100 * 86400000⟩] := by rfl
  by_cases early : t < 90 * 86400000
  · have read : Covers [⟨0, 90 * 86400000⟩] t := ⟨_, List.mem_singleton_self _, started, early⟩
    exact (@covers_iff_freeAt _ 1 ⟨0, 90 * 86400000⟩ _ tree present _ first t started early).mp read
  · have later : (10 * 86400000 : Ms) ≤ t := by lia
    have read : Covers [⟨10 * 86400000, 100 * 86400000⟩] t := ⟨_, List.mem_singleton_self _, later, notEnded⟩
    exact (@covers_iff_freeAt _ 1 ⟨10 * 86400000, 100 * 86400000⟩ _ tree present _ last t later notEnded).mp read

/-- Every instant of the season is free in the building, and its room cannot be opened for it. -/
theorem season_refused : (∀ t, season.1.start ≤ t → t < season.1.end → openSeason.FreeAt 1 t) ∧
    (exec (addRule 20 2 season.1 false) openSeason).1 = .error (.limitExceeded "query window too wide") := by
  refine ⟨fun t started notEnded => openSeason_free started notEnded, ?_⟩
  rw [addRule_judged openSeason_reachable.healthy rfl openSeason_room openSeason_parent openSeason_fresh (by decide)]
  exact checkParentCoverage_wide rfl (by decide) (by decide)

/-- The room can be opened for a day. -/
theorem day_judged : openSeason.JudgedByParent 1 ⟨0, 86400000⟩ (exec (addRule 20 2 ⟨0, 86400000⟩ false) openSeason).1 := by
  have narrow : Span.durationMs ⟨0, 86400000⟩ ≤ maxQueryWindowMs := by decide
  have room : (ResourceState.new 2 (some 1) none 1 none).intervals.length < maxIntervalsPerResource := by decide
  have valid : validateSpan ⟨0, 86400000⟩ = .ok () := rfl
  have both := child_rule_judged_iff openSeason_reachable.healthy openSeason_reachable.wellFormedTree valid (by decide)
    openSeason_room openSeason_parent
  exact (both.1 20 openSeason_fresh room).mpr narrow

end Engine

end Deltat
