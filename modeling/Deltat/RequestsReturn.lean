import Deltat.BatchAdmission
import Deltat.MergedReads
import Deltat.RequestAsserts

/-! # Requests that return

On resources with proper spans, a buffer that is a duration, and holds that end after the epoch,
no assertion of a request fails. Each check then answers as it does without its assertions.
-/

namespace Deltat

open Lib Limits

/-! ## Asserted computations -/

namespace Asserted

variable {ε α β : Type}

@[simp] theorem returns_ok_bind (a : α) (f : α → Asserted ε β) : (returns (.ok a) >>= f) = f a := rfl

@[simp] theorem returns_error_bind (error : ε) (f : α → Asserted ε β) :
    (returns (.error error) >>= f) = returns (.error error) := rfl

@[simp] theorem some_bind (a : α) (f : α → Asserted ε β) :
    ((liftM (some a) : Asserted ε α) >>= f) = f a := rfl

/-- What follows a check that returns has to return only where the check passes. -/
theorem bind_returns {x : Except ε α} {f : α → Asserted ε β} {g : α → Except ε β}
    (each : ∀ a, x = .ok a → f a = returns (g a)) : (returns x >>= f) = returns (x >>= g) := by
  cases x with
  | error error => rfl
  | ok a => exact each a rfl

theorem bind_of_returns {x : Asserted ε α} {y : Except ε α} (same : x = returns y) {f : α → Asserted ε β} {g : α → Except ε β}
    (each : ∀ a, y = .ok a → f a = returns (g a)) : (x >>= f) = returns (y >>= g) := by
  rw [same]
  exact bind_returns each

theorem forM_returns {xs : List α} {f : α → Asserted ε PUnit} {g : α → Except ε PUnit}
    (each : ∀ x ∈ xs, f x = returns (g x)) : xs.forM f = returns (xs.forM g) := by
  induction xs with
  | nil => rfl
  | cons x rest ih =>
      obtain ⟨here, later⟩ := List.forall_mem_cons.mp each
      change (f x >>= fun _ => rest.forM f) = returns (g x >>= fun _ => rest.forM g)
      rw [here]
      exact bind_returns fun _ _ => ih later

theorem mapM_returns {xs : List α} {f : α → Asserted ε β} {g : α → Except ε β}
    (each : ∀ x ∈ xs, f x = returns (g x)) : xs.mapM f = returns (xs.mapM g) := by
  induction xs with
  | nil => rfl
  | cons x rest ih =>
      obtain ⟨here, later⟩ := List.forall_mem_cons.mp each
      simp only [List.mapM_cons]
      rw [here, ih later]
      exact bind_returns fun _ _ => bind_returns fun _ _ => rfl

end Asserted

open Asserted

namespace Asserting

/-- A refusal that is put together like one without assertions. -/
theorem orRefuse_returns {α : Type} {check : Except EngineError α} {refusal : EngineError → Option Refused}
    {answer : EngineError → Refused} (each : ∀ error, check = .error error → refusal error = some (answer error)) :
    orRefuse (returns check) refusal = returns (check.mapError answer) := by
  cases check with
  | ok a => rfl
  | error error =>
      unfold orRefuse
      change (refusal error).map Except.error = some (.error (answer error))
      rw [each error rfl]
      rfl

theorem refusing_returns {α : Type} (check : Except EngineError α) :
    refusing (returns check) = returns (Deltat.refusing check) := orRefuse_returns fun _ _ => rfl

/-! ## Validation -/

theorem durationMs_returns {s : Span} (lower : i64Min ≤ s.durationMs) (upper : s.durationMs ≤ i64Max) :
    durationMs s = some s.durationMs := if_pos ⟨lower, upper⟩

/-- The width of a span whose bounds are in range fits. -/
theorem validateSpan_returns {span : Span} (proper : span.start < span.end) :
    validateSpan span = returns (Conflict.validateSpan span) := by
  unfold validateSpan Conflict.validateSpan
  split
  · rfl
  · next inRange =>
      have fits : durationMs span = some span.durationMs := by
        simp only [minValidTimestampMs, maxValidTimestampMs, not_or] at inRange
        apply durationMs_returns <;> simp only [Span.durationMs, i64Min, i64Max] <;> lia
      rw [fits, apply_ite returns]
      rfl

end Asserting

/-! ## Resources that requests can be weighed against -/

namespace ResourceState

/-- No assertion of a request fails on such a resource, as long as the sweep can count its intervals. -/
structure Steady (rs : ResourceState) : Prop where
  orderly : rs.Orderly
  ends : ∀ i ∈ rs.intervals, i.kind.isHold = true → 0 < i.span.end
  -- Only the resources without a parent answer a refused commit with an offer.
  short : rs.parentId = none → ∀ i ∈ rs.intervals, i.kind.isHold = true → i.span.durationMs ≤ i64Max

end ResourceState

namespace InMemoryStore

/-- The resources that a request can see. -/
structure Steady (s : InMemoryStore) : Prop where
  each : ∀ r rs, s.getResource r = some rs → rs.Steady
  few : ∀ r rs, s.getResource r = some rs → rs.intervals.length ≤ u32Max

variable {s : InMemoryStore} {r : Ulid} {rs : ResourceState}

theorem Steady.calm (steady : s.Steady) (present : s.getResource r = some rs) : rs.Calm :=
  (steady.each r rs present).orderly.calm (steady.few r rs present)

end InMemoryStore

namespace Asserting

variable {s : InMemoryStore} {query : Span}

/-! ## Reads -/

theorem inheritFrom_returns {parent : ResourceState} (calm : parent.Calm) (proper : query.start < query.end)
    (rules : InheritedRules) : inheritFrom query rules parent = some (InMemoryStore.inheritFrom query rules parent) := by
  have each : ∀ kind : IntervalKind, ((parent.overlapping query).filter (·.kind = kind)).mapM (clamp query) =
      some (((parent.overlapping query).filter (·.kind = kind)).map fun i =>
        ⟨max i.span.start query.start, min i.span.end query.end⟩) := fun kind =>
    mapM_eq fun i inside => clamp_returns calm proper (List.mem_filter.mp inside).1
  unfold inheritFrom InMemoryStore.inheritFrom
  simp only [each]
  cases rules.ancestorHasSchedule with
  | false => rfl
  | true =>
      simp only [if_true, Option.bind_eq_bind, Option.bind_some, List.append_nil]
      rfl

theorem inheritAlong_returns (steady : s.Steady) (proper : query.start < query.end) (chain : List Ulid)
    (rules : InheritedRules) : inheritAlong s query chain rules = returns (s.inheritAlong query chain rules) := by
  induction chain generalizing rules with
  | nil => rfl
  | cons pid chain ih =>
      unfold inheritAlong InMemoryStore.inheritAlong
      cases present : s.getResource pid with
      | none => rfl
      | some parent =>
          simp only [inheritFrom_returns (steady.calm present) proper]
          exact ih _

theorem collectInheritedRules_returns (steady : s.Steady) (proper : query.start < query.end) (resourceId : Ulid)
    (parentId : Option Ulid) : collectInheritedRules s resourceId parentId query =
      returns (s.collectInheritedRules resourceId parentId query) := by
  apply bind_returns
  intro chain _
  rw [inheritAlong_returns steady proper]
  exact bind_returns fun _ _ => rfl

/-- What is inherited is clamped to the query. -/
structure Clamped (query : Span) (rules : InheritedRules) : Prop where
  opens : ∀ span ∈ rules.nonBlocking, query.start ≤ span.start ∧ span.start < span.end ∧ span.end ≤ query.end
  closes : ∀ span ∈ rules.blocking, span.start < span.end

theorem inheritAlong_line {chain : List Ulid} {rules found : InheritedRules}
    (walked : s.inheritAlong query chain rules = .ok found) : ∃ line : List ResourceState,
      (∀ parent ∈ line, ∃ pid, s.getResource pid = some parent) ∧
        found = line.foldl (InMemoryStore.inheritFrom query) rules := by
  induction chain generalizing rules with
  | nil =>
      cases walked
      exact ⟨[], List.forall_mem_nil _, rfl⟩
  | cons pid chain ih =>
      unfold InMemoryStore.inheritAlong at walked
      split at walked
      · cases walked
      · next parent present =>
          obtain ⟨line, there, same⟩ := ih walked
          exact ⟨parent :: line, List.forall_mem_cons.mpr ⟨⟨pid, present⟩, there⟩, same⟩

theorem collected_clamped (steady : s.Steady) (proper : query.start < query.end) {resourceId : Ulid}
    {parentId : Option Ulid} {rules : InheritedRules}
    (collected : s.collectInheritedRules resourceId parentId query = .ok rules) : Clamped query rules := by
  obtain ⟨chain, _, collected⟩ := Outcome.bind_ok.mp collected
  obtain ⟨found, walked, same⟩ := Outcome.bind_ok.mp collected
  cases same
  obtain ⟨line, there, rfl⟩ := inheritAlong_line walked
  have orderly : ∀ parent ∈ line, parent.Orderly := by
    intro parent inside
    obtain ⟨pid, present⟩ := there parent inside
    exact (steady.each pid parent present).orderly
  obtain ⟨opens, closes⟩ := InMemoryStore.inherited_proper query orderly proper ⟨[], [], false⟩
    (List.forall_mem_nil _) (List.forall_mem_nil _)
  have unsorted : ∀ {spans : List Span} {span : Span}, span ∈ sortByStart spans → span ∈ spans :=
    fun inside => (sortByStart_perm _).mem_iff.mp inside
  exact ⟨fun span inside => opens span (unsorted inside), fun span inside => closes span (unsorted inside)⟩

/-- The spans whose width fits. -/
theorem longEnough_returns {spans : List Span} (fits : ∀ span ∈ spans, i64Min ≤ span.durationMs ∧ span.durationMs ≤ i64Max)
    (minDur : Ms) : longEnough minDur spans = some (spans.filter fun span => decide (span.durationMs ≥ minDur)) := by
  induction spans with
  | nil => rfl
  | cons span rest ih =>
      obtain ⟨here, later⟩ := List.forall_mem_cons.mp fits
      unfold longEnough
      rw [durationMs_returns here.1 here.2, ih later, List.filter_cons]
      simp only [Option.bind_eq_bind, Option.bind_some, decide_eq_true_eq]
      rfl

/-- The runs of a read are no wider than what the base of the read reaches over. -/
theorem runs_fit {rs : ResourceState} {rules : InheritedRules} {window : Span} {now : Ms} (orderly : rs.Orderly)
    (proper : query.start < query.end) (clamped : Clamped window rules) (from' : query.start = window.start)
    (within : query.end - query.start ≤ i64Max ∧ window.end - window.start ≤ i64Max) :
    ∀ run ∈ Availability.availability rs query rules.nonBlocking rules.blocking now,
      i64Min ≤ run.durationMs ∧ run.durationMs ≤ i64Max := by
  intro run inside
  have positive := (ResourceState.availability_separate orderly proper (fun span given => (clamped.opens span given).2.1)
    clamped.closes).proper run inside
  have range : ∀ t, run.start ≤ t → t < run.end → query.start ≤ t ∧ t < max query.end window.end := by
    intro t started notEnded
    have based := ResourceState.covers_base_of_availability ⟨run, inside, started, notEnded⟩
    split at based
    · exact (ResourceState.clamped_within based).imp_right fun below => lt_max_of_lt_left below
    · obtain ⟨given, found, lower, upper⟩ := based
      obtain ⟨first, _, last⟩ := clamped.opens given found
      exact ⟨from' ▸ first.trans lower, lt_max_of_lt_right (lt_of_lt_of_le upper last)⟩
  have first := range run.start (le_refl _) positive
  have last := range (run.end - 1) (by lia) (by lia)
  simp only [Span.durationMs, i64Min, i64Max] at within ⊢
  lia

theorem computeAvailability_returns (steady : s.Steady) (now : Ms) (resourceId : Ulid) (queryStart queryEnd : Ms)
    (minDurationMs : Option Ms) : computeAvailability s now resourceId queryStart queryEnd minDurationMs =
      returns (s.computeAvailability now resourceId queryStart queryEnd minDurationMs) := by
  unfold computeAvailability InMemoryStore.computeAvailability
  have lower : 0 ≤ max minValidTimestampMs (min maxValidTimestampMs queryStart) := le_max_left ..
  have upper : max minValidTimestampMs (min maxValidTimestampMs queryEnd) ≤ i64Max := by
    simp only [minValidTimestampMs, maxValidTimestampMs, i64Max]
    lia
  generalize max minValidTimestampMs (min maxValidTimestampMs queryStart) = first at lower ⊢
  generalize max minValidTimestampMs (min maxValidTimestampMs queryEnd) = last at upper ⊢
  simp only
  split
  · rfl
  · next wide =>
      split
      · rfl
      · cases present : s.getResource resourceId with
        | none => rfl
        | some rs =>
            have proper : first < last := Int.not_le.mp wide
            have narrow : last - first ≤ i64Max := by lia
            simp only [newSpan_of proper]
            change (collectInheritedRules s resourceId (s.getParent resourceId) ⟨first, last⟩ >>= _) = _
            rw [collectInheritedRules_returns steady proper]
            apply bind_returns
            intro rules collected
            have clamped := collected_clamped steady proper collected
            have free : availability rs ⟨first, last⟩ rules.nonBlocking rules.blocking now =
                some (Availability.availability rs ⟨first, last⟩ rules.nonBlocking rules.blocking now) :=
              availability_returns (steady.calm present) proper (lower.trans_lt proper)
            simp only [free]
            cases minDurationMs with
            | none => rfl
            | some minDur =>
                have orderly := (steady.each _ rs present).orderly
                have fit := @runs_fit ⟨first, last⟩ rs rules ⟨first, last⟩ now orderly proper clamped rfl ⟨narrow, narrow⟩
                change (liftM (longEnough minDur _) : Asserted EngineError (List Span)) = _
                rw [longEnough_returns fit]
                rfl

/-! ## Admission -/

variable {rs : ResourceState} {span : Span} {now : Ms}

theorem checkRulesAdmit_returns (calm : rs.Calm) (proper : span.start < span.end) (nonBlocking blocking : List Span)
    (scheduled : Bool) : checkRulesAdmit rs span nonBlocking blocking scheduled =
      returns (Conflict.checkRulesAdmit rs span nonBlocking blocking scheduled) := by
  unfold checkRulesAdmit Conflict.checkRulesAdmit
  rw [ownRuleSpans_returns calm proper, apply_ite returns]
  rfl

theorem collectActiveAllocsWithBuffer_returns (calm : rs.Calm) (query : Span) (exclude : Option Ulid) :
    collectActiveAllocsWithBuffer rs query now rs.buffer exclude =
      some (Conflict.collectActiveAllocsWithBuffer rs query now rs.buffer exclude) := by
  have footprints : ∀ keep : Interval → Bool, ((rs.overlapping query).filter keep).mapM (fun i => buffered i.span rs.buffer) =
      some (((rs.overlapping query).filter keep).map (·.span.buffered rs.buffer)) := fun keep =>
    mapM_eq fun i inside =>
      have held := ResourceState.mem_of_overlapping (List.mem_filter.mp inside).1
      buffered_returns calm.buffer (calm.proper i held) (calm.upper i held)
  unfold collectActiveAllocsWithBuffer
  rw [footprints]
  rfl

/-- The footprints that a check collects. -/
theorem collected_calm (calm : rs.Calm) (query : Span) (exclude : Option Ulid) :
    (∀ a ∈ Conflict.collectActiveAllocsWithBuffer rs query now rs.buffer exclude, a.start < a.end) ∧
      (Conflict.collectActiveAllocsWithBuffer rs query now rs.buffer exclude).length ≤ rs.intervals.length := by
  unfold Conflict.collectActiveAllocsWithBuffer
  constructor
  · apply Availability.sortByStart_proper
    intro a inside
    obtain ⟨i, found, rfl⟩ := List.mem_map.mp inside
    have held := ResourceState.mem_of_overlapping (List.mem_filter.mp found).1
    exact (newSpan_iff.mp (buffered_returns calm.buffer (calm.proper i held) (calm.upper i held))).1
  · rw [(sortByStart_perm _).length_eq, List.length_map]
    exact (List.filter_sublist.trans (ResourceState.overlapping_sublist rs _)).length_le

theorem firstConflict_returns {buffer : Ms} {candidate : Span} {intervals : List Interval}
    (footprints : ∀ i ∈ intervals, buffered i.span buffer = some (i.span.buffered buffer)) :
    firstConflict buffer candidate intervals =
      some (intervals.find? fun i => (i.span.buffered buffer).overlaps candidate) := by
  induction intervals with
  | nil => rfl
  | cons i rest ih =>
      obtain ⟨here, later⟩ := List.forall_mem_cons.mp footprints
      unfold firstConflict
      rw [here, ih later, List.find?_cons]
      simp only [Option.bind_eq_bind, Option.bind_some]
      split <;> simp_all

/-- The window of a conflict check is proper when the candidate ends after the epoch. -/
theorem search_returns {buffer : Ms} (duration : 0 ≤ buffer) (proper : span.start < span.end) (after : 0 < span.end)
    (upper : span.end ≤ i64Max) : newSpan (max (satSub span.start buffer) 0) (satAdd span.end buffer) =
      some ⟨max (satSub span.start buffer) 0, satAdd span.end buffer⟩ := by
  apply newSpan_of
  simp only [satAdd, satSub, i64Max, i64Min] at upper ⊢
  lia

theorem checkNoConflictExcluding_returns (calm : rs.Calm) (proper : span.start < span.end) (after : 0 < span.end)
    (upper : span.end ≤ i64Max) (exclude : Option Ulid) : checkNoConflictExcluding rs span now exclude =
      returns (Conflict.checkNoConflictExcluding rs span now exclude) := by
  unfold checkNoConflictExcluding Conflict.checkNoConflictExcluding
  simp only
  rw [buffered_returns calm.buffer proper upper, search_returns calm.buffer proper after upper]
  simp only [some_bind]
  split
  · rw [firstConflict_returns fun i inside => by
      have held := ResourceState.mem_of_overlapping (List.mem_filter.mp inside).1
      exact buffered_returns calm.buffer (calm.proper i held) (calm.upper i held)]
    simp only [some_bind, List.find?_filter, Bool.decide_and, Bool.decide_eq_true]
    generalize List.find? _ (rs.overlapping _) = found
    cases found with
    | none => rfl
    | some conflicting => rfl
  · obtain ⟨positive, few⟩ := @collected_calm rs now calm ⟨max (satSub span.start rs.buffer) 0, satAdd span.end rs.buffer⟩ exclude
    rw [collectActiveAllocsWithBuffer_returns calm]
    simp only [some_bind]
    rw [computeSaturatedSpans_returns _ positive (few.trans calm.few), apply_ite returns]
    rfl

/-- The members of a batch count too. -/
theorem checkBatchCapacity_returns (calm : rs.Calm) {spans : List Span} (admitted : ∀ s ∈ spans, s.Admitted)
    (few : rs.intervals.length + spans.length ≤ u32Max) :
    checkBatchCapacity rs spans now = returns (Conflict.checkBatchCapacity rs spans now) := by
  have upper : ∀ s ∈ spans, s.end ≤ i64Max := fun s given => (admitted s given).upper.trans (by decide)
  have members : spans.mapM (buffered · rs.buffer) = some (spans.map (·.buffered rs.buffer)) :=
    mapM_eq fun s given => buffered_returns calm.buffer (admitted s given).proper (upper s given)
  unfold checkBatchCapacity Conflict.checkBatchCapacity
  simp only
  cases least : (spans.map (·.start)).min? with
  | none => rfl
  | some lo =>
      cases most : (spans.map fun s => satAdd s.end rs.buffer).max? with
      | none => rfl
      | some hi =>
          obtain ⟨lowest, first⟩ := List.min?_eq_some_iff.mp least
          obtain ⟨s, given, rfl⟩ := List.mem_map.mp lowest
          have reaches := (List.max?_eq_some_iff.mp most).2 _ (List.mem_map_of_mem given)
          have window : newSpan (max (satSub s.start rs.buffer) 0) hi = some ⟨max (satSub s.start rs.buffer) 0, hi⟩ := by
            have duration := calm.buffer
            have proper := (admitted s given).proper
            have lower := (admitted s given).lower
            have bound := upper s given
            apply newSpan_of
            simp only [satAdd, satSub, i64Max, i64Min, minValidTimestampMs] at reaches lower bound ⊢
            lia
          obtain ⟨positive, some'⟩ := @collected_calm rs now calm ⟨max (satSub s.start rs.buffer) 0, hi⟩ none
          have every : ∀ a ∈ Conflict.collectActiveAllocsWithBuffer rs ⟨max (satSub s.start rs.buffer) 0, hi⟩ now rs.buffer none ++
              spans.map (·.buffered rs.buffer), a.start < a.end := by
            intro a inside
            rcases List.mem_append.mp inside with active | new
            · exact positive a active
            · obtain ⟨m, member, rfl⟩ := List.mem_map.mp new
              exact (newSpan_iff.mp (buffered_returns calm.buffer (admitted m member).proper (upper m member))).1
          have counted : (sortByStart (Conflict.collectActiveAllocsWithBuffer rs
              ⟨max (satSub s.start rs.buffer) 0, hi⟩ now rs.buffer none ++ spans.map (·.buffered rs.buffer))).length ≤ u32Max := by
            rw [(sortByStart_perm _).length_eq, List.length_append, List.length_map]
            omega
          simp only [window, some_bind]
          rw [collectActiveAllocsWithBuffer_returns calm, members]
          simp only [some_bind]
          rw [computeSaturatedSpans_returns _ (Availability.sortByStart_proper every) counted, apply_ite returns]
          rfl

theorem checkPairwise_returns {buffer : Ms} (duration : 0 ≤ buffer) {batch : List (Ulid × Span)}
    (admitted : ∀ m ∈ batch, m.2.Admitted) : checkPairwise buffer batch = returns (Engine.checkPairwise buffer batch) := by
  have footprint : ∀ m ∈ batch, buffered m.2 buffer = some (m.2.buffered buffer) := fun m given =>
    buffered_returns duration (admitted m given).proper ((admitted m given).upper.trans (by decide))
  induction batch with
  | nil => rfl
  | cons member rest ih =>
      obtain ⟨id, span⟩ := member
      obtain ⟨here, others⟩ := List.forall_mem_cons.mp footprint
      unfold checkPairwise Engine.checkPairwise
      rw [forM_returns fun other inRest => ?_]
      · apply bind_returns
        intro _ _
        exact ih (List.forall_mem_cons.mp admitted).2 others
      · rw [here, others other inRest]
        exact bind_returns fun _ _ => rfl

/-! ## Counter-offers -/

/-- The runs that are long enough, up to the limit. -/
theorem alternatives_returns {free : List Span} (fits : ∀ run ∈ free, i64Min ≤ run.durationMs ∧ run.durationMs ≤ i64Max)
    (width needed : Ms) (limit : Nat) : alternatives width needed limit free =
      some (((free.filter fun run => decide (run.durationMs ≥ needed)).filterMap fun run =>
        if run.start < satAdd run.start width then some (⟨run.start, satAdd run.start width⟩ : Span) else none).take limit) := by
  induction free generalizing limit with
  | nil => cases limit <;> rfl
  | cons run rest ih =>
      obtain ⟨here, later⟩ := List.forall_mem_cons.mp fits
      cases limit with
      | zero => rfl
      | succ limit =>
          unfold alternatives
          rw [durationMs_returns here.1 here.2, ih later, ih later]
          simp only [Option.bind_eq_bind, Option.bind_some, List.filter_cons, decide_eq_true_eq]
          by_cases long : run.durationMs ≥ needed
          · by_cases room : run.start < satAdd run.start width
            · simp [long, room]
            · simp [long, room]
          · simp [long]

/-- Where a refused request and its windows are of widths that fit, its offer can be put together. -/
theorem rank_returns (calm : rs.Calm) {rules : InheritedRules} {window : Span} (clamped : Clamped window rules)
    (from' : span.start = window.start) (width : i64Min ≤ span.durationMs ∧ span.durationMs ≤ i64Max)
    (within : window.end - window.start ≤ i64Max) (after : 0 < window.end) (scheduled : Bool) (limit : Nat) :
    rank rs span rules.nonBlocking rules.blocking scheduled now window.end limit =
      some (Offer.rank rs span rules.nonBlocking rules.blocking scheduled now window.end limit) := by
  unfold rank Offer.rank
  simp only
  split
  · rfl
  · split
    · rfl
    · split
      · next proper =>
          have answer : availability rs ⟨span.start, min window.end maxValidTimestampMs⟩ rules.nonBlocking rules.blocking now =
              some (Availability.availability rs ⟨span.start, min window.end maxValidTimestampMs⟩ rules.nonBlocking
                rules.blocking now) := by
            apply availability_returns calm proper
            exact lt_min after (by decide)
          have narrow : min window.end maxValidTimestampMs - span.start ≤ i64Max := by lia
          have fit := @runs_fit ⟨span.start, min window.end maxValidTimestampMs⟩ rs rules window now calm.orderly proper clamped
            from' ⟨narrow, within⟩
          rw [durationMs_returns width.1 width.2, answer]
          simp only [Option.bind_eq_bind, Option.bind_some]
          rw [alternatives_returns fit]
          rfl
      · rfl

theorem refuse_returns (calm : rs.Calm) {rules : InheritedRules} {window : Span} (clamped : Clamped window rules)
    (from' : span.start = window.start) (width : i64Min ≤ span.durationMs ∧ span.durationMs ≤ i64Max)
    (within : window.end - window.start ≤ i64Max) (after : 0 < window.end) (scheduled : Bool) (limit : Nat)
    (error : EngineError) :
    refuse error rs span rules.nonBlocking rules.blocking scheduled now window.end limit =
      some (Offer.refuse error rs span rules.nonBlocking rules.blocking scheduled now window.end limit) := by
  unfold refuse Offer.refuse
  split
  · rfl
  · rw [rank_returns calm clamped from' width within after]
    rfl

/-- The window of an offer begins with the request and is not much wider. -/
theorem offerWindow_fits (proper : span.start < span.end) (limit : Nat) :
    (Offer.offerWindow span limit).start = span.start ∧
      (Offer.offerWindow span limit).start < (Offer.offerWindow span limit).end ∧
      (0 < span.end → 0 < (Offer.offerWindow span limit).end) ∧
      (0 < span.end → span.durationMs ≤ i64Max →
        (Offer.offerWindow span limit).end - (Offer.offerWindow span limit).start ≤ i64Max) := by
  unfold Offer.offerWindow
  simp only [Span.durationMs]
  split
  · exact ⟨rfl, proper, id, fun _ => id⟩
  · split
    · next inside =>
        simp only [satAdd, counterOfferWindowMs, maxValidTimestampMs, i64Max, i64Min] at inside ⊢
        refine ⟨trivial, inside, ?_, ?_⟩ <;> lia
    · exact ⟨rfl, proper, id, fun _ => id⟩

/-! ## Requests -/

variable {e : Engine}

theorem validateSpan_admits (proper : span.start < span.end) (valid : Conflict.validateSpan span = .ok ()) :
    span.Admitted ∧ 0 < span.end ∧ span.end ≤ i64Max ∧ i64Min ≤ span.durationMs ∧ span.durationMs ≤ i64Max := by
  have admitted := Conflict.validateSpan_admits proper valid
  have lower := admitted.lower
  have upper := admitted.upper
  have width := admitted.width
  refine ⟨admitted, ?_, upper.trans (by decide), ?_, width.trans (by decide)⟩
  · exact lt_of_le_of_lt lower proper
  · simp only [Span.durationMs, i64Min]
    lia

theorem ruleContext_returns (steady : e.store.Steady) (proper : span.start < span.end) (resourceId : Ulid) (offerLimit : Nat) :
    ruleContext e resourceId span offerLimit = returns (e.ruleContext resourceId span offerLimit) := by
  apply bind_returns
  intro _ _
  exact collectInheritedRules_returns steady (offerWindow_fits proper offerLimit).2.1 ..

theorem ruleContext_clamped (steady : e.store.Steady) (proper : span.start < span.end) {resourceId : Ulid} {offerLimit : Nat}
    {rules : InheritedRules} (collected : e.ruleContext resourceId span offerLimit = .ok rules) :
    Clamped (Offer.offerWindow span offerLimit) rules := by
  obtain ⟨_, _, collected⟩ := Outcome.bind_ok.mp collected
  exact collected_clamped steady (offerWindow_fits proper offerLimit).2.1 collected

/-- A validated allocation is admitted or refused, with an offer or without. -/
theorem admitOne_returns (steady : e.store.Steady) (proper : span.start < span.end)
    (valid : Conflict.validateSpan span = .ok ()) {rules : InheritedRules} {offerLimit : Nat}
    (clamped : Clamped (Offer.offerWindow span offerLimit) rules) (id resourceId : Ulid) :
    admitOne e id resourceId span rules (Offer.offerWindow span offerLimit).end offerLimit =
      returns (e.admitOne id resourceId span rules (Offer.offerWindow span offerLimit).end offerLimit) := by
  obtain ⟨_, after, upper, width⟩ := validateSpan_admits proper valid
  obtain ⟨from', _, ends, within⟩ := offerWindow_fits proper offerLimit
  unfold admitOne Engine.admitOne
  cases present : e.store.getResource resourceId with
  | none => rfl
  | some guard =>
      have calm := steady.calm present
      simp only
      cases (do e.rejectReusedId id; Engine.checkIntervalLimit guard : Except EngineError Unit) with
      | error error => rfl
      | ok _ =>
          simp only
          have checks : (do
              checkRulesAdmit guard span rules.nonBlocking rules.blocking rules.ancestorHasSchedule
              checkNoConflict guard span e.clock : Asserted EngineError Unit) = returns (do
                Conflict.checkRulesAdmit guard span rules.nonBlocking rules.blocking rules.ancestorHasSchedule
                Conflict.checkNoConflict guard span e.clock) := by
            rw [checkRulesAdmit_returns calm proper]
            exact bind_returns fun _ _ => checkNoConflictExcluding_returns calm proper after upper none
          rw [checks, orRefuse_returns fun error _ =>
            refuse_returns calm clamped from'.symm width (within after width.2) (ends after) ..]
          cases (Conflict.checkRulesAdmit guard span rules.nonBlocking rules.blocking rules.ancestorHasSchedule >>= fun _ =>
            Conflict.checkNoConflict guard span e.clock) <;> rfl

theorem checkHold_returns (steady : e.store.Steady) (proper : span.start < span.end) (id resourceId : Ulid) (requested : Ms)
    (offerLimit : Nat) : checkHold e id resourceId span requested offerLimit =
      returns (e.checkHold id resourceId span requested offerLimit) := by
  have before : (do
      validateSpan span
      let expiresAt ← e.holdExpiry requested
      let rules ← ruleContext e resourceId span offerLimit
      return (expiresAt, rules) : Asserted EngineError (Ms × InheritedRules)) = returns (do
        Conflict.validateSpan span
        let expiresAt ← e.holdExpiry requested
        let rules ← e.ruleContext resourceId span offerLimit
        return (expiresAt, rules)) := by
    rw [validateSpan_returns proper, ruleContext_returns steady proper]
    exact bind_returns fun _ _ => bind_returns fun _ _ => bind_returns fun _ _ => rfl
  unfold checkHold Engine.checkHold
  rw [before, refusing_returns]
  apply bind_returns
  intro found passed
  obtain ⟨_, valid, passed⟩ := Outcome.bind_ok.mp (refusing_ok.mp passed)
  obtain ⟨expiresAt, _, passed⟩ := Outcome.bind_ok.mp passed
  obtain ⟨rules, collected, same⟩ := Outcome.bind_ok.mp passed
  cases same
  exact bind_of_returns (admitOne_returns steady proper valid (ruleContext_clamped steady proper collected) ..) fun _ _ => rfl

theorem checkBooking_returns (steady : e.store.Steady) (proper : span.start < span.end) (id resourceId : Ulid)
    (label : Option String) (offerLimit : Nat) : checkBooking e id resourceId span label offerLimit =
      returns (e.checkBooking id resourceId span label offerLimit) := by
  have before : (do
      validateSpan span
      Conflict.validateLabel label
      ruleContext e resourceId span offerLimit : Asserted EngineError InheritedRules) = returns (do
        Conflict.validateSpan span
        Conflict.validateLabel label
        e.ruleContext resourceId span offerLimit) := by
    rw [validateSpan_returns proper, ruleContext_returns steady proper]
    exact bind_returns fun _ _ => bind_returns fun _ _ => rfl
  unfold checkBooking Engine.checkBooking
  rw [before, refusing_returns]
  apply bind_returns
  intro rules passed
  obtain ⟨_, valid, passed⟩ := Outcome.bind_ok.mp (refusing_ok.mp passed)
  obtain ⟨_, _, collected⟩ := Outcome.bind_ok.mp passed
  exact admitOne_returns steady proper valid (ruleContext_clamped steady proper collected) ..

/-- On a resource with room, all members of a batch are weighed. -/
theorem admitOn_returns {guard : ResourceState} (calm : guard.Calm) (room : guard.intervals.length < maxIntervalsPerResource)
    {batch : List (Ulid × Span)} (proper : ∀ m ∈ batch, m.2.start < m.2.end)
    (valid : ∀ m ∈ batch, Conflict.validateSpan m.2 = .ok ()) (size : batch.length ≤ maxBatchSize) (rules : InheritedRules) :
    admitOn e guard rules batch = returns (e.admitOn guard rules batch) := by
  have admitted : ∀ m ∈ batch, m.2.Admitted := fun m given => (validateSpan_admits (proper m given) (valid m given)).1
  unfold admitOn Engine.admitOn
  rw [forM_returns fun member given => ?_]
  · apply bind_returns
    intro _ _
    split
    · split
      · exact checkPairwise_returns calm.buffer admitted
      · apply checkBatchCapacity_returns calm
        · intro s inside
          obtain ⟨m, given, rfl⟩ := List.mem_map.mp inside
          exact admitted m given
        · have counted : maxIntervalsPerResource + maxBatchSize ≤ u32Max := by decide
          rw [List.length_map]
          omega
    · rfl
  · obtain ⟨_, after, upper, _⟩ := validateSpan_admits (proper member given) (valid member given)
    rw [checkRulesAdmit_returns calm (proper member given)]
    exact bind_returns fun _ _ => checkNoConflictExcluding_returns calm (proper member given) after upper none

theorem batchRules_returns (steady : e.store.Steady) {members : List (Ulid × Ulid × Span)}
    (proper : ∀ m ∈ members, m.2.2.start < m.2.2.end) (rid : Ulid) :
    batchRules e members rid = returns (e.batchRules members rid) := by
  unfold batchRules Engine.batchRules
  simp only
  cases least : (((Engine.membersOn members rid).map (·.2)).map (·.start)).min? with
  | none => rfl
  | some lo =>
      cases most : (((Engine.membersOn members rid).map (·.2)).map (·.end)).max? with
      | none => rfl
      | some hi =>
          obtain ⟨lowest, _⟩ := List.min?_eq_some_iff.mp least
          obtain ⟨s, given, rfl⟩ := List.mem_map.mp lowest
          have reaches := (List.max?_eq_some_iff.mp most).2 _ (List.mem_map_of_mem given)
          obtain ⟨m, onIt, rfl⟩ := List.mem_map.mp given
          have member := Engine.of_mem_membersOn onIt
          have hull : m.2.start < hi := lt_of_lt_of_le (proper _ member) reaches
          simp only [newSpan_of hull]
          exact collectInheritedRules_returns steady hull ..

theorem admitBatch_returns (steady : e.store.Steady) {members : List (Ulid × Ulid × Span)}
    (proper : ∀ m ∈ members, m.2.2.start < m.2.2.end) : admitBatch e members = returns (e.admitBatch members) := by
  apply bind_returns
  intro _ size
  apply bind_of_returns (forM_returns fun m given => validateSpan_returns (proper m given))
  intro _ valid
  apply bind_returns
  intro _ _
  apply bind_of_returns (mapM_returns fun rid _ => batchRules_returns steady proper rid)
  intro context collected
  apply bind_returns
  intro locked locks
  apply bind_returns
  intro _ room
  apply bind_of_returns (forM_returns fun _ _ => rfl)
  intro _ _
  apply forM_returns
  rintro ⟨⟨rid, guard⟩, rules⟩ entry
  have size : members.length ≤ maxBatchSize := Nat.le_of_not_lt (rejectIf_ok.mp size)
  have spans : ∀ m ∈ members, Conflict.validateSpan m.2.2 = .ok () := Outcome.forM_ok.mp valid
  have held : (Engine.ascending (members.map (·.2.1))).mapM e.resource = .ok locked := by
    have held : (Engine.ascending (Engine.ascending (members.map (·.2.1)))).mapM e.resource = .ok locked := locks
    rwa [Engine.ascending_ascending] at held
  have isHeld : guard ∈ locked := (List.of_mem_zip (List.of_mem_zip entry).1).2
  have present := Engine.resource_ok.mp (Outcome.mapM_ok_row held collected entry).2.1
  have free : guard.intervals.length < maxIntervalsPerResource := by
    have none' : ¬ locked.any (·.intervals.length ≥ maxIntervalsPerResource) = true := rejectIf_ok.mp room
    rw [List.any_eq_true] at none'
    by_contra full
    exact none' ⟨guard, isHeld, decide_eq_true (Nat.le_of_not_lt full)⟩
  apply admitOn_returns (steady.calm present) free
  · exact fun m inside => proper _ (Engine.of_mem_membersOn inside)
  · exact fun m inside => spans _ (Engine.of_mem_membersOn inside)
  · rw [Engine.membersOn, List.length_map]
    exact (List.length_filter_le ..).trans size

theorem checkBookings_returns (steady : e.store.Steady) {bookings : List (Ulid × Ulid × Span × Option String)}
    (proper : ∀ b ∈ bookings, b.2.2.1.start < b.2.2.1.end) : checkBookings e bookings = returns (e.checkBookings bookings) := by
  apply bind_of_returns (forM_returns fun _ _ => rfl)
  intro _ _
  exact admitBatch_returns steady (List.forall_mem_map.mpr proper)

theorem checkHolds_returns (steady : e.store.Steady) {holds : List (Ulid × Ulid × Span × Ms)}
    (proper : ∀ h ∈ holds, h.2.2.1.start < h.2.2.1.end) : checkHolds e holds =
      returns (e.holdExpiries holds >>= fun clamped => e.admitBatch (clamped.map fun h => (h.1, h.2.1, h.2.2.1))) := by
  apply bind_returns
  intro clamped expiries
  refine admitBatch_returns steady (List.forall_mem_map.mpr fun h inside => ?_)
  obtain ⟨given, isGiven, clamp⟩ := Outcome.mapM_ok_result expiries inside
  obtain ⟨_, _, same⟩ := Outcome.bind_ok.mp clamp
  cases same
  exact proper given isGiven

/-- A held span is weighed again when its hold is committed, and a lone refusal of a root offers. -/
theorem admitCommit_returns (steady : e.store.Steady) (offerLimit : Nat) (holdId bookingId : Ulid) (label : Option String)
    (rid : Ulid) : admitCommit e offerLimit holdId bookingId label rid =
      returns (e.admitCommit offerLimit holdId bookingId label rid) := by
  unfold admitCommit Engine.admitCommit
  cases resolved : (do
      let guard ← e.resource rid
      let hold ← Engine.findIntervalOfKind guard holdId IntervalKind.isHold
      e.rejectReusedId bookingId
      return (guard, hold.span) : Except EngineError (ResourceState × Span)) with
  | error error => rfl
  | ok found =>
      obtain ⟨guard, present, resolved⟩ := Outcome.bind_ok.mp resolved
      obtain ⟨hold, there, resolved⟩ := Outcome.bind_ok.mp resolved
      obtain ⟨_, _, same⟩ := Outcome.bind_ok.mp resolved
      cases same
      have present := Engine.resource_ok.mp present
      have calm := steady.calm present
      have steadily := steady.each _ guard present
      obtain ⟨inside, _, isHold⟩ := Engine.findIntervalOfKind_mem there
      have proper := calm.proper hold inside
      have after := steadily.ends hold inside isHold
      have upper := calm.upper hold inside
      have answers : ∀ limit, (limit = 0 ∨ guard.parentId = none) → ∀ error,
          refuse error guard hold.span [] [] false e.clock (Offer.offerWindow hold.span limit).end limit =
            some (Offer.refuse error guard hold.span [] [] false e.clock (Offer.offerWindow hold.span limit).end limit) := by
        rintro limit (rfl | root) error
        · unfold refuse Offer.refuse
          rw [if_pos (Or.inl rfl), if_pos (Or.inl rfl)]
        · have narrow := steadily.short root hold inside isHold
          have wide : i64Min ≤ hold.span.durationMs := by
            simp only [Span.durationMs, i64Min]
            lia
          obtain ⟨from', _, ends, within⟩ := offerWindow_fits proper limit
          exact @refuse_returns guard hold.span e.clock calm ⟨[], [], false⟩ _ ⟨List.forall_mem_nil _, List.forall_mem_nil _⟩
            from'.symm ⟨wide, narrow⟩ (within after narrow) (ends after) false limit error
      have offers : (if guard.parentId.isNone && guard.hasNonBlockingRule then offerLimit else 0) = 0 ∨ guard.parentId = none := by
        split
        · next can =>
            rw [Bool.and_eq_true, Option.isNone_iff_eq_none] at can
            exact .inr can.1
        · exact .inl rfl
      simp only
      rw [checkNoConflictExcluding_returns calm proper after upper, orRefuse_returns fun error _ => answers _ offers error]
      cases Conflict.checkNoConflictExcluding guard hold.span e.clock (some holdId) <;> rfl

theorem checkCommits_returns (steady : e.store.Steady) (commits : List (Ulid × Ulid × Option String)) (offerLimit : Nat) :
    checkCommits e commits offerLimit = returns (e.checkCommits commits offerLimit) := by
  apply bind_returns
  intro resourceIds _
  apply bind_of_returns (mapM_returns fun _ _ => admitCommit_returns steady ..)
  intro _ _
  rfl

end Asserting

end Deltat
