import Deltat.AdmissionOrder
import Deltat.IntervalLimit
import Deltat.OfferVerdicts

/-! # Every counter-offer can be taken

A read over the window of an offer finds maximal free runs. The request fits at the start of each
run that is long enough for it and its turnaround, and admission accepts it there. The runs lie
apart, so a booking of one offered span takes no room from another, and only the limit on the
intervals of the resource can stand in the way.
-/

namespace Deltat

open Lib Lib.Outcome Limits Availability Conflict

/-- The rules above a resource as an offer lends them: clamped to its window, and no opening
    hours when nothing above defines any. -/
structure Windowed (window : Span) (rules : InheritedRules) : Prop where
  opens : ∀ s ∈ rules.nonBlocking, s.start < s.end
  closes : ∀ s ∈ rules.blocking, s.start < s.end
  within : ∀ t, Covers rules.nonBlocking t → window.start ≤ t ∧ t < window.end
  unscheduled : rules.ancestorHasSchedule = false → rules.nonBlocking = []

namespace InMemoryStore

variable {s : InMemoryStore} {r : Ulid} {guard : ResourceState} {window : Span}

/-- Without a schedule on the way up, nothing is open from above. -/
theorem inherited_unscheduled {line : List ResourceState} {rules : InheritedRules}
    (before : rules.ancestorHasSchedule = false → rules.nonBlocking = []) :
    (line.foldl (inheritFrom window) rules).ancestorHasSchedule = false →
      (line.foldl (inheritFrom window) rules).nonBlocking = [] := by
  induction line generalizing rules with
  | nil => exact before
  | cons parent line ih =>
      apply ih
      intro nowhere
      obtain ⟨above, here⟩ := Bool.or_eq_false_iff.mp nowhere
      have rulesHere : (parent.overlapping window).filter (·.kind = .nonBlocking) = [] := by
        apply List.filter_eq_nil_iff.mpr
        intro i met
        simp only [decide_eq_true_eq]
        intro opens
        have some' := List.any_eq_false.mp here i (ResourceState.mem_of_overlapping met)
        exact some' (by simp [opens])
      simp only [inheritFrom, above, rulesHere, before above, List.map_nil, List.append_nil, ite_self]

theorem collectInheritedRules_windowed (tree : s.WellFormedTree) (present : s.getResource r = some guard)
    (proper : window.start < window.end) {rules : InheritedRules}
    (collected : s.collectInheritedRules r (s.getParent r) window = .ok rules) : Windowed window rules := by
  obtain ⟨line, lineage, shallow⟩ := tree.ancestors r guard present
  have agree := collectInheritedRules_agree proper le_rfl le_rfl tree.timelines r (s.getParent r)
  rw [collected] at agree
  have found := collected.symm.trans (collectInheritedRules_ok lineage shallow window)
  cases agree with
  | ok agree =>
      refine ⟨agree.opens.proper, agree.closes.proper, fun t covered => ?_, fun nowhere => ?_⟩
      · rw [Except.ok.inj found] at covered
        exact (inherited_within _ (covers_sortByStart.mp covered)).resolve_left covers_nil
      · rw [Except.ok.inj found] at nowhere ⊢
        have closed := inherited_unscheduled (fun _ => rfl) nowhere
        change sortByStart _ = []
        rw [closed]
        rfl

end InMemoryStore

namespace Offer

variable {guard : ResourceState} {span : Span} {rules : InheritedRules} {now : Ms} {limit : Nat}

/-- The free runs of a window that are long enough for a request and its turnaround. -/
def roomyRuns (guard : ResourceState) (requested : Span) (inheritedNonBlocking inheritedBlocking : List Span)
    (now windowEnd : Ms) : List Span :=
  (availability guard ⟨requested.start, windowEnd⟩ inheritedNonBlocking inheritedBlocking now).filter fun run =>
    decide (run.durationMs ≥ requested.durationMs + guard.buffer)

/-- The window of an offer begins with the request. -/
theorem offerWindow_eq (admitted : span.Admitted) (positive : 0 < limit) :
    offerWindow span limit = ⟨span.start, (offerWindow span limit).end⟩ ∧
      span.start < (offerWindow span limit).end ∧ (offerWindow span limit).end ≤ maxValidTimestampMs := by
  have proper := admitted.proper
  have upper := admitted.upper
  have later : span.start < min (max span.end (satAdd span.start counterOfferWindowMs)) maxValidTimestampMs := by lia
  unfold offerWindow
  simp only [Nat.pos_iff_ne_zero.mp positive, if_false, later, if_true, true_and]
  exact min_le_right _ _

/-- The request moved to the beginning of a run. -/
def atStart (requested run : Span) : Span := ⟨run.start, run.start + requested.durationMs⟩

theorem free_within {query : Span} {t : Ms} (windowed : Windowed query rules)
    (free : Covers (availability guard query rules.nonBlocking rules.blocking now) t) : query.start ≤ t ∧ t < query.end := by
  have based := ResourceState.covers_base_of_availability free
  split at based
  · exact ResourceState.clamped_within based
  · exact windowed.within t based

/-- Where a window has free time, some schedule opens it. -/
theorem scheduled_of_free {query : Span} {t : Ms} (windowed : Windowed query rules)
    (free : Covers (availability guard query rules.nonBlocking rules.blocking now) t) :
    guard.hasNonBlockingRule = true ∨ rules.ancestorHasSchedule = true := by
  by_contra unscheduled
  simp only [not_or, Bool.not_eq_true] at unscheduled
  have based := ResourceState.covers_base_of_availability free
  rw [unscheduled.1, windowed.unscheduled unscheduled.2] at based
  exact covers_nil based

section Runs

variable {windowEnd : Ms} (wf : guard.WellFormed) (started : span.start < windowEnd)
  (windowed : Windowed ⟨span.start, windowEnd⟩ rules)
include wf started windowed

theorem free_separate : Separate (availability guard ⟨span.start, windowEnd⟩ rules.nonBlocking rules.blocking now) :=
  ResourceState.availability_separate wf.timeline.orderly started windowed.opens windowed.closes

theorem roomyRuns_separate : Separate (roomyRuns guard span rules.nonBlocking rules.blocking now windowEnd) where
  proper run roomy := (free_separate wf started windowed).proper run (List.mem_filter.mp roomy).1
  gaps := (free_separate wf started windowed).gaps.filter _

/-- A run that is long enough starts no earlier than the request, and ends in the window. -/
theorem roomyRuns_within {run : Span} (roomy : run ∈ roomyRuns guard span rules.nonBlocking rules.blocking now windowEnd) :
    span.start ≤ run.start ∧ run.start + span.durationMs + guard.buffer ≤ run.end ∧ run.end ≤ windowEnd := by
  obtain ⟨free, long⟩ := List.mem_filter.mp roomy
  have positive := (free_separate wf started windowed).proper run free
  have first := free_within windowed ⟨run, free, le_refl _, positive⟩
  have last := free_within windowed ⟨run, free, Int.le_sub_one_of_lt positive, Int.sub_one_lt_of_le le_rfl⟩
  rw [decide_eq_true_eq, Span.durationMs] at long
  refine ⟨first.1, by lia, by lia⟩

/-- The alternatives are the first of these runs, with the request at the beginning of each. -/
theorem rank_alternatives (admitted : span.Admitted) (valid : windowEnd ≤ maxValidTimestampMs) (positive : 0 < limit) :
    (rank guard span rules.nonBlocking rules.blocking rules.ancestorHasSchedule now windowEnd limit).alternatives =
      ((roomyRuns guard span rules.nonBlocking rules.blocking now windowEnd).take limit).map (atStart span) := by
  have buffer := wf.buffer_bounds
  have length : 0 < span.durationMs := by
    have proper := admitted.proper
    rw [Span.durationMs]
    lia
  have width := admitted.width
  have range : maxValidTimestampMs ≤ i64Max ∧ i64Min ≤ 0 ∧ 0 ≤ minValidTimestampMs ∧ maxSpanDurationMs + maxSpanDurationMs ≤ i64Max := by
    decide
  have needed : satAdd span.durationMs guard.buffer = span.durationMs + guard.buffer := by
    unfold satAdd
    lia
  have inWindow : min windowEnd maxValidTimestampMs = windowEnd := min_eq_left valid
  have fits : ∀ run ∈ roomyRuns guard span rules.nonBlocking rules.blocking now windowEnd,
      satAdd run.start span.durationMs = run.start + span.durationMs := by
    intro run roomy
    have within := roomyRuns_within wf started windowed roomy
    have lower := admitted.lower
    unfold satAdd
    lia
  have placed : (roomyRuns guard span rules.nonBlocking rules.blocking now windowEnd).filterMap (fun run =>
      if run.start < satAdd run.start span.durationMs then some (⟨run.start, satAdd run.start span.durationMs⟩ : Span) else none) =
      (roomyRuns guard span rules.nonBlocking rules.blocking now windowEnd).map (atStart span) := by
    rw [← List.filterMap_eq_map]
    apply List.filterMap_congr
    intro run roomy
    rw [fits run roomy, if_pos (by lia)]
    rfl
  unfold rank
  simp only
  rw [if_neg (Nat.pos_iff_ne_zero.mp positive)]
  split
  · next unscheduled =>
      have nothing : roomyRuns guard span rules.nonBlocking rules.blocking now windowEnd = [] := by
        apply List.eq_nil_iff_forall_not_mem.mpr
        intro run roomy
        have inside := (List.mem_filter.mp roomy).1
        have proper := (roomyRuns_separate wf started windowed).proper run roomy
        have scheduled := scheduled_of_free windowed ⟨run, inside, le_refl _, proper⟩
        rcases scheduled with own | above
        · simp [own] at unscheduled
        · simp [above] at unscheduled
      rw [nothing, List.take_nil]
      rfl
  · rw [inWindow, if_pos started, needed, List.map_take, ← placed]
    rfl

end Runs

end Offer

/-- Whatever the rules refuse is closed by the schedule. -/
theorem Conflict.checkRulesAdmit_refusal {rs : ResourceState} {span : Span} {opens closes : List Span} {schedule : Bool}
    (denied : checkRulesAdmit rs span opens closes schedule ≠ .ok ()) :
    ∃ closed, checkRulesAdmit rs span opens closes schedule = .error (.closedBySchedule span closed) := by
  have either : ∀ (nothing : Bool) (error : EngineError), (if nothing then Except.ok () else .error error) ≠ .ok () →
      (if nothing then Except.ok () else .error error : Except EngineError Unit) = .error error := by
    intro nothing error some'
    cases nothing with
    | true => exact absurd rfl some'
    | false => rfl
  exact ⟨_, either _ _ denied⟩

theorem Conflict.validateSpan_of_admitted {s : Span} (admitted : s.Admitted) : validateSpan s = .ok () := by
  have lower := admitted.lower
  have upper := admitted.upper
  have width := admitted.width
  unfold validateSpan
  rw [if_neg (by lia), if_neg (by lia)]

namespace Engine

variable {e : Engine} {r : Ulid} {guard : ResourceState} {span : Span} {limit : Nat} {offer : CounterOffer} {ids : List Ulid}

/-- What a caller may expect of an offer that came with the refusal of a span: each alternative is
    a span like the refused one that the checks accept now, and new ids book them all in turn. -/
structure Takeable (e : Engine) (r : Ulid) (guard : ResourceState) (span : Span) (limit : Nat) (offer : CounterOffer)
    (ids : List Ulid) : Prop where
  duration : ∀ alternative ∈ offer.alternatives, alternative.durationMs = span.durationMs
  valid : ∀ alternative ∈ offer.alternatives, validateSpan alternative = .ok ()
  accepted : ∀ alternative ∈ offer.alternatives, ∃ rules, e.ruleContext r alternative 0 = .ok rules ∧
    checkRulesAdmit guard alternative rules.nonBlocking rules.blocking rules.ancestorHasSchedule = .ok () ∧
    checkNoConflict guard alternative e.clock = .ok ()
  inTurn : (exec (confirmAll r ((ids.zip offer.alternatives).map fun b => (b.1, b.2, none))) e).1 = .ok ()
  separate : Separate offer.alternatives
  few : offer.alternatives.length ≤ limit
  other : span ∉ offer.alternatives

/-- The resource stays below its limit of intervals while the free runs of the offer's window that
    are long enough are booked one after another. -/
def RoomFor (e : Engine) (r : Ulid) (guard : ResourceState) (span : Span) (limit : Nat) : Prop :=
  ∀ rules, e.ruleContext r span limit = .ok rules →
    ∀ k < min limit (Offer.roomyRuns guard span rules.nonBlocking rules.blocking e.clock
      (Offer.offerWindow span limit).end).length,
    guard.intervals.length + k < maxIntervalsPerResource

/-- Candidates that were all booked found room below the limit, each after the ones before it. -/
theorem confirmAll_room {candidates : List Candidate} : ∀ {e : Engine} {rs : ResourceState}, e.Healthy →
    e.store.getResource r = some rs → (∀ c ∈ candidates, c.2.1.Valid) → (exec (confirmAll r candidates) e).1 = .ok () →
    ∀ k < candidates.length, rs.intervals.length + k < maxIntervalsPerResource := by
  induction candidates with
  | nil => exact fun _ _ _ _ k beyond => absurd beyond (Nat.not_lt_zero k)
  | cons c rest ih =>
      intro e rs h present proper ok k inside
      have run : exec (confirmAll r (c :: rest)) e =
          exec (confirmBooking c.1 r c.2.1 c.2.2 >>= fun _ => confirmAll r rest) e := rfl
      rw [run] at ok
      cases passed : e.checkBooking c.1 r c.2.1 c.2.2 0 with
      | error refused =>
          rw [exec_bind_error (confirmBooking_refused passed)] at ok
          cases ok
      | ok u =>
          obtain ⟨_, _, room, _⟩ := (checkBooking_ok_iff present).mp passed
          obtain ⟨e₁, ran, wrote⟩ := confirmBooking_wrote h (proper c List.mem_cons_self) passed
          have booked := booked_of_wrote h present wrote
          rw [exec_bind_ok ran] at ok
          cases k with
          | zero => exact room
          | succ k =>
              have later := ih booked.healthy booked.present (fun d inRest => proper d (List.mem_cons_of_mem _ inRest)) ok k
                (Nat.lt_of_succ_lt_succ inside)
              rw [(ResourceState.insertInterval_perm c.booking).length_eq, List.length_cons] at later
              omega

section Offered

variable (h : e.Healthy) (tree : e.store.WellFormedTree) (present : e.store.getResource r = some guard) (admitted : span.Admitted)
  (positive : 0 < limit) {rules : InheritedRules} (context : e.ruleContext r span limit = .ok rules)
include h tree present admitted positive context

omit h in
theorem ruleContext_windowed : Windowed ⟨span.start, (Offer.offerWindow span limit).end⟩ rules := by
  obtain ⟨same, started, _⟩ := Offer.offerWindow_eq admitted positive
  obtain ⟨_, _, collected⟩ := bind_ok.mp context
  rw [same] at collected
  exact InMemoryStore.collectInheritedRules_windowed tree present started collected

/-- An offered span is one that a request may ask for, and its turnaround ends in its run. -/
theorem atStart_admitted {run : Span} (roomy : run ∈ Offer.roomyRuns guard span rules.nonBlocking rules.blocking e.clock
    (Offer.offerWindow span limit).end) : (Offer.atStart span run).Admitted ∧
      (Offer.atStart span run).end + guard.buffer ≤ run.end ∧ span.start ≤ run.start ∧
      run.end ≤ (Offer.offerWindow span limit).end := by
  obtain ⟨_, started, upper⟩ := Offer.offerWindow_eq admitted positive
  have wf := h.consistent.wellFormed r guard present
  obtain ⟨after, fits, inWindow⟩ := Offer.roomyRuns_within wf started
    (ruleContext_windowed tree present admitted positive context) roomy
  have buffer := wf.buffer_bounds
  have proper := admitted.proper
  have lower := admitted.lower
  have width := admitted.width
  have same : (Offer.atStart span run).durationMs = span.durationMs := add_sub_cancel_left _ _
  refine ⟨⟨?_, ?_, ?_, ?_⟩, fits, after, inWindow⟩
  · have length : 0 < span.durationMs := Int.sub_pos_of_lt proper
    exact Int.lt_add_of_pos_right _ length
  · exact lower.trans after
  · simp only [Offer.atStart]
    lia
  · rw [same]
    exact width

/-- Admission accepts an offered span, with the rules it collects for that span itself. -/
theorem atStart_accepted {run : Span} (roomy : run ∈ Offer.roomyRuns guard span rules.nonBlocking rules.blocking e.clock
    (Offer.offerWindow span limit).end) : ∃ rules', e.ruleContext r (Offer.atStart span run) 0 = .ok rules' ∧
      checkRulesAdmit guard (Offer.atStart span run) rules'.nonBlocking rules'.blocking rules'.ancestorHasSchedule = .ok () ∧
      checkNoConflict guard (Offer.atStart span run) e.clock = .ok () := by
  obtain ⟨window, started, upper⟩ := Offer.offerWindow_eq admitted positive
  have wf := h.consistent.wellFormed r guard present
  have windowed := ruleContext_windowed tree present admitted positive context
  obtain ⟨spanAdmitted, fits, after, inWindow⟩ := atStart_admitted h tree present admitted positive context roomy
  have buffer := wf.buffer_bounds
  have insideRun := (List.mem_filter.mp roomy).1
  have starts : (Offer.offerWindow span limit).start ≤ (Offer.atStart span run).start := by
    rw [window]
    exact after
  have ends : (Offer.atStart span run).end ≤ (Offer.offerWindow span limit).end := by lia
  have agree := InMemoryStore.collectInheritedRules_agree spanAdmitted.proper starts ends tree.timelines r (e.store.getParent r)
  obtain ⟨_, found, collected⟩ := bind_ok.mp context
  rw [collected] at agree
  cases own : e.store.collectInheritedRules r (e.store.getParent r) (Offer.atStart span run) with
  | error error =>
      rw [own] at agree
      cases agree
  | ok rules' =>
      rw [own] at agree
      cases agree with
      | ok agree =>
          have here : e.ruleContext r (Offer.atStart span run) 0 = .ok rules' := bind_ok.mpr ⟨_, found, own⟩
          refine ⟨rules', here, ?_⟩
          have proper := (Offer.roomyRuns_separate wf started windowed).proper run roomy
          have scheduled := Offer.scheduled_of_free windowed ⟨run, insideRun, le_refl _, proper⟩
          rw [← agree.schedule] at scheduled
          apply @accepted_of_free guard _ ⟨span.start, (Offer.offerWindow span limit).end⟩ _ wf.timeline wf.capacity
            spanAdmitted.representable _ _ _ _ _ scheduled
          · intro t started notEnded
            exact ⟨(agree.opens.covers t started notEnded).symm, (agree.closes.covers t started notEnded).symm⟩
          · exact after
          · exact fits.trans inWindow
          · intro t started notEnded
            exact ⟨run, insideRun, started, notEnded.trans_le fits⟩

/-- The offered spans fit together: they lie in runs apart from each other, turnaround included. -/
theorem fitTogether_alternatives {taken : List Candidate} (offered : (taken.map (·.2.1)).Sublist
    ((Offer.roomyRuns guard span rules.nonBlocking rules.blocking e.clock (Offer.offerWindow span limit).end).map
      (Offer.atStart span))) : FitTogether guard e.clock taken := by
  obtain ⟨_, started, _⟩ := Offer.offerWindow_eq admitted positive
  have wf := h.consistent.wellFormed r guard present
  have windowed := ruleContext_windowed tree present admitted positive context
  have apart : (taken.map (·.2.1)).Pairwise fun a b => a.end + guard.buffer ≤ b.start := by
    apply List.Pairwise.sublist offered
    rw [List.pairwise_map]
    apply (Offer.roomyRuns_separate wf started windowed).gaps.imp_of_mem
    intro a b roomy _ gap
    have fits := (atStart_admitted h tree present admitted positive context roomy).2.1
    exact fits.trans gap.le
  intro c member t occupied
  have alone : batchAt guard (taken.map (·.2.1)) t ≤ 1 := by
    apply countP_le_one
    apply apart.imp
    rintro a b before ⟨first, second⟩
    exact absurd ((ResourceState.occupies_iff.mp second).1.trans_lt (ResourceState.occupies_iff.mp first).2) before.not_gt
  obtain ⟨run, roomy, same⟩ := List.mem_map.mp (offered.subset (List.mem_map_of_mem member))
  obtain ⟨_, _, _, free⟩ := atStart_accepted h tree present admitted positive context roomy
  have spanAdmitted := (atStart_admitted h tree present admitted positive context roomy).1
  rw [same] at free spanAdmitted
  have room := (checkNoConflictExcluding_ok wf spanAdmitted).mp free t occupied
  rw [ResourceState.othersAt_none] at room
  omega

/-- An offer of this window can be taken exactly when the resource has room for its intervals. -/
theorem takeable_iff (refused : ¬ (checkRulesAdmit guard span rules.nonBlocking rules.blocking rules.ancestorHasSchedule = .ok () ∧
      checkNoConflict guard span e.clock = .ok ()))
    (offered : offer = Offer.rank guard span rules.nonBlocking rules.blocking rules.ancestorHasSchedule e.clock
      (Offer.offerWindow span limit).end limit)
    (idsNodup : ids.Nodup) (unused : ∀ id ∈ ids, e.store.getResourceForEntity id = none)
    (enough : ids.length = offer.alternatives.length) : e.Takeable r guard span limit offer ids ↔ e.RoomFor r guard span limit := by
  obtain ⟨_, started, upper⟩ := Offer.offerWindow_eq admitted positive
  have wf := h.consistent.wellFormed r guard present
  have windowed := ruleContext_windowed tree present admitted positive context
  have alternatives : offer.alternatives = ((Offer.roomyRuns guard span rules.nonBlocking rules.blocking e.clock
      (Offer.offerWindow span limit).end).take limit).map (Offer.atStart span) := by
    rw [offered]
    exact Offer.rank_alternatives wf started windowed admitted upper positive
  have length : offer.alternatives.length = min limit (Offer.roomyRuns guard span rules.nonBlocking rules.blocking e.clock
      (Offer.offerWindow span limit).end).length := by
    rw [alternatives, List.length_map, List.length_take]
  have each : ∀ alternative ∈ offer.alternatives, ∃ run ∈ Offer.roomyRuns guard span rules.nonBlocking rules.blocking e.clock
      (Offer.offerWindow span limit).end, Offer.atStart span run = alternative := by
    intro alternative inside
    rw [alternatives] at inside
    obtain ⟨run, taken, same⟩ := List.mem_map.mp inside
    exact ⟨run, List.mem_of_mem_take taken, same⟩
  have spanOf : ∀ alternative ∈ offer.alternatives, alternative.Admitted := by
    intro alternative inside
    obtain ⟨run, roomy, rfl⟩ := each alternative inside
    exact (atStart_admitted h tree present admitted positive context roomy).1
  have spans : ((ids.zip offer.alternatives).map fun b => ((b.1, b.2, none) : Candidate)).map (·.2.1) = offer.alternatives := by
    rw [List.map_map]
    exact List.map_snd_zip enough.ge
  have names : ((ids.zip offer.alternatives).map fun b => ((b.1, b.2, none) : Candidate)).map (·.1) = ids := by
    rw [List.map_map]
    exact List.map_fst_zip enough.le
  have count := (congrArg List.length spans).symm.trans (List.length_map _)
  have proper : ∀ c ∈ (ids.zip offer.alternatives).map fun b => ((b.1, b.2, none) : Candidate), c.2.1.Admitted := by
    intro c member
    apply spanOf
    rw [← spans]
    exact List.mem_map_of_mem member
  constructor
  · intro takeable rules' context' k inside
    obtain rfl : rules = rules' := Except.ok.inj (context.symm.trans context')
    rw [← length, count] at inside
    exact confirmAll_room h present (fun c member => (proper c member).proper) takeable.inTurn k inside
  · intro room
    constructor
    case duration =>
      intro alternative inside
      obtain ⟨run, _, rfl⟩ := each alternative inside
      exact add_sub_cancel_left _ _
    case valid => exact fun alternative inside => validateSpan_of_admitted (spanOf alternative inside)
    case accepted =>
      intro alternative inside
      obtain ⟨run, roomy, rfl⟩ := each alternative inside
      exact atStart_accepted h tree present admitted positive context roomy
    case inTurn =>
      rcases Nat.eq_zero_or_pos offer.alternatives.length with none' | some'
      · rw [List.length_eq_zero_iff.mp none', List.zip_nil_right]
        rfl
      · have below := room rules context (offer.alternatives.length - 1) (by omega)
        have free : e.Candidates guard ((ids.zip offer.alternatives).map fun b => (b.1, b.2, none)) := by
          refine ⟨fun c member => (proper c member).proper, names.symm ▸ idsNodup, fun c member => ?_, by omega⟩
          apply unused
          rw [← names]
          exact List.mem_map_of_mem member
        apply (confirmAll_ok h present free).1.mpr
        constructor
        · intro c member
          have inside : c.2.1 ∈ offer.alternatives := by
            rw [← spans]
            exact List.mem_map_of_mem member
          obtain ⟨run, roomy, same⟩ := each c.2.1 inside
          obtain ⟨rules', own, accepted, _⟩ := atStart_accepted h tree present admitted positive context roomy
          obtain ⟨b, _, rfl⟩ := List.mem_map.mp member
          rw [same] at own accepted
          exact ⟨validateSpan_of_admitted (spanOf _ inside), rfl, rules', guard, own, present, accepted⟩
        · apply fitTogether_alternatives h tree present admitted positive context
          rw [spans, alternatives]
          exact (List.take_sublist _ _).map _
    case separate =>
      refine ⟨fun s inside => (spanOf s inside).proper, ?_⟩
      rw [alternatives, List.pairwise_map]
      apply ((Offer.roomyRuns_separate wf started windowed).gaps.sublist (List.take_sublist _ _)).imp_of_mem
      intro a b taken _ gap
      have fits := (atStart_admitted h tree present admitted positive context (List.mem_of_mem_take taken)).2.1
      have buffer := wf.buffer_bounds
      exact ((Int.le_add_of_nonneg_right buffer.1).trans fits).trans_lt gap
    case few =>
      rw [length]
      exact min_le_left _ _
    case other =>
      intro inside
      obtain ⟨run, roomy, same⟩ := each span inside
      obtain ⟨rules', own, accepted⟩ := atStart_accepted h tree present admitted positive context roomy
      rw [same] at own accepted
      have agree := ruleContext_agree tree.timelines admitted.proper (validateSpan_of_admitted admitted) r limit
      rw [own, context] at agree
      cases agree with
      | ok agree =>
          rw [checkRulesAdmit_agree wf.timeline admitted.proper agree] at accepted
          exact refused accepted

end Offered

end Engine

end Deltat
