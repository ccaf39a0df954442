import Deltat.Lib.TwoRuns
import Deltat.RuleCoverage

/-! # Offers and verdicts

A request that may need an offer collects the inherited rules over a wider window. Over the
request itself they cover the same instants, so the verdict is the same, down to the spans that a
refusal names as closed.
-/

namespace Deltat

open Lib Lib.Outcome Lib.TwoRuns Limits Availability Conflict

/-- Proper spans that cover the same instants of a span. -/
structure AgreeOn (span : Span) (xs ys : List Span) : Prop where
  covers : ∀ t, span.start ≤ t → t < span.end → (Covers xs t ↔ Covers ys t)
  proper : ∀ s ∈ xs, s.start < s.end
  proper' : ∀ s ∈ ys, s.start < s.end

namespace AgreeOn

variable {span : Span} {xs ys xs' ys' : List Span}

theorem nil : AgreeOn span [] [] := ⟨fun _ _ _ => Iff.rfl, List.forall_mem_nil _, List.forall_mem_nil _⟩

theorem append (first : AgreeOn span xs ys) (second : AgreeOn span xs' ys') : AgreeOn span (xs ++ xs') (ys ++ ys') where
  covers t started notEnded := by
    rw [covers_append, covers_append, first.covers t started notEnded, second.covers t started notEnded]
  proper := List.forall_mem_append.mpr ⟨first.proper, second.proper⟩
  proper' := List.forall_mem_append.mpr ⟨first.proper', second.proper'⟩

theorem sort (agree : AgreeOn span xs ys) : AgreeOn span (sortByStart xs) (sortByStart ys) where
  covers t started notEnded := by rw [covers_sortByStart, covers_sortByStart, agree.covers t started notEnded]
  proper := sortByStart_proper agree.proper
  proper' := sortByStart_proper agree.proper'

end AgreeOn

/-- Inherited rules that agree over a span. -/
structure InheritedRules.Agree (span : Span) (rules rules' : InheritedRules) : Prop where
  schedule : rules.ancestorHasSchedule = rules'.ancestorHasSchedule
  opens : AgreeOn span rules.nonBlocking rules'.nonBlocking
  closes : AgreeOn span rules.blocking rules'.blocking

namespace InMemoryStore

section Collecting

variable {s : InMemoryStore} {span window : Span} {rules rules' : InheritedRules}
variable (proper : span.start < span.end) (starts : window.start ≤ span.start) (ends : span.end ≤ window.end)
include proper starts ends

/-- The rules of one kind, clamped to the span and to the window. -/
theorem clamped_agree {parent : ResourceState} (timeline : parent.Timeline) (kind : IntervalKind) :
    AgreeOn span (((parent.overlapping span).filter (·.kind = kind)).map fun i =>
        ⟨max i.span.start span.start, min i.span.end span.end⟩)
      (((parent.overlapping window).filter (·.kind = kind)).map fun i =>
        ⟨max i.span.start window.start, min i.span.end window.end⟩) where
  covers t started notEnded := by
    rw [ResourceState.covers_clamped timeline.sorted kind started notEnded,
      ResourceState.covers_clamped timeline.sorted kind (starts.trans started) (notEnded.trans_le ends)]
  proper := ResourceState.clamped_proper timeline.orderly proper kind
  proper' := ResourceState.clamped_proper timeline.orderly ((starts.trans_lt proper).trans_le ends) kind

/-- An ancestor contributes the same to both, over the span. -/
theorem inheritFrom_agree {parent : ResourceState} (timeline : parent.Timeline) (agree : rules.Agree span rules') :
    (inheritFrom span rules parent).Agree span (inheritFrom window rules' parent) := by
  have opens := clamped_agree proper starts ends timeline .nonBlocking
  have closes := clamped_agree proper starts ends timeline .blocking
  constructor
  case schedule => exact congrArg (· || parent.hasNonBlockingRule) agree.schedule
  case opens =>
    simp only [inheritFrom, agree.schedule]
    split
    · exact agree.opens
    · exact agree.opens.append opens
  case closes => exact agree.closes.append closes

theorem inheritAlong_agree (timelines : ∀ r rs, s.getResource r = some rs → rs.Timeline) (chain : List Ulid)
    (agree : rules.Agree span rules') :
    Same (InheritedRules.Agree span) (s.inheritAlong span chain rules) (s.inheritAlong window chain rules') := by
  induction chain generalizing rules rules' with
  | nil => exact .ok agree
  | cons p chain ih =>
      unfold inheritAlong
      cases present : s.getResource p with
      | none => exact .error _
      | some parent => exact ih (inheritFrom_agree proper starts ends (timelines p parent present) agree)

/-- Over the span, the rules collected for it and for a wider window agree. -/
theorem collectInheritedRules_agree (timelines : ∀ r rs, s.getResource r = some rs → rs.Timeline) (r : Ulid)
    (parentId : Option Ulid) : Same (InheritedRules.Agree span) (s.collectInheritedRules r parentId span)
      (s.collectInheritedRules r parentId window) := by
  unfold collectInheritedRules
  apply Same.bind (.of_eq rfl)
  rintro chain _ rfl
  apply (inheritAlong_agree proper starts ends timelines chain ⟨rfl, .nil, .nil⟩).bind
  exact fun _ _ agree => .ok ⟨agree.schedule, agree.opens.sort, agree.closes.sort⟩

end Collecting

end InMemoryStore

namespace Conflict

variable {rs : ResourceState} {span : Span}

/-- What is closed of a span depends only on the instants of it that are open. -/
theorem closed_eq (proper : span.start < span.end) {opened opened' : List Span} (first : Separate opened)
    (second : Separate opened') (same : ∀ t, span.start ≤ t → t < span.end → (Covers opened t ↔ Covers opened' t)) :
    subtractIntervals [span] opened = subtractIntervals [span] opened' := by
  apply Separate.eq (subtractIntervals_separate (.singleton proper) first.proper)
    (subtractIntervals_separate (.singleton proper) second.proper)
  intro t
  rw [subtractIntervals_covers (List.pairwise_singleton _ _) first.ordered,
    subtractIntervals_covers (List.pairwise_singleton _ _) second.ordered, covers_cons, or_iff_left covers_nil]
  exact and_congr_right fun inside => not_congr (same t inside.1 inside.2)

/-- Inherited rules that agree over the span give the same verdict, closed spans included. -/
theorem checkRulesAdmit_agree (timeline : rs.Timeline) (proper : span.start < span.end) {rules rules' : InheritedRules}
    (agree : rules.Agree span rules') :
    checkRulesAdmit rs span rules.nonBlocking rules.blocking rules.ancestorHasSchedule =
      checkRulesAdmit rs span rules'.nonBlocking rules'.blocking rules'.ancestorHasSchedule := by
  have own := ResourceState.clamped_proper timeline.orderly proper
  have bases : AgreeOn span
      (if rs.hasNonBlockingRule then (ownRuleSpans rs span).1
        else if rules.ancestorHasSchedule then rules.nonBlocking else [span])
      (if rs.hasNonBlockingRule then (ownRuleSpans rs span).1
        else if rules'.ancestorHasSchedule then rules'.nonBlocking else [span]) := by
    rw [agree.schedule]
    split
    · exact ⟨fun _ _ _ => Iff.rfl, own .nonBlocking, own .nonBlocking⟩
    · split
      · exact agree.opens
      · exact ⟨fun _ _ _ => Iff.rfl, List.forall_mem_singleton.mpr proper, List.forall_mem_singleton.mpr proper⟩
  have shut : ∀ s ∈ (ownRuleSpans rs span).2, s.start < s.end := own .blocking
  unfold checkRulesAdmit
  simp only
  rw [closed_eq proper (assembleOpenWindows_separate bases.proper shut agree.closes.proper)
    (assembleOpenWindows_separate bases.proper' shut agree.closes.proper')]
  intro t started notEnded
  rw [assembleOpenWindows_covers, assembleOpenWindows_covers, bases.covers t started notEnded,
    agree.closes.covers t started notEnded]

end Conflict

theorem offerWindow_contains (span : Span) (valid : validateSpan span = .ok ()) (limit : Nat) :
    (Offer.offerWindow span limit).start ≤ span.start ∧ span.end ≤ (Offer.offerWindow span limit).end := by
  have upper := (Engine.validateSpan_bounds valid).2
  unfold Offer.offerWindow
  split
  · exact ⟨le_rfl, le_rfl⟩
  · simp only
    split
    · exact ⟨le_rfl, le_min (le_max_left _ _) upper⟩
    · exact ⟨le_rfl, le_rfl⟩

namespace Engine

variable {e : Engine} {span : Span}

/-- The outcome of an operation without the offer of its refusal. -/
def verdict {α : Type} (outcome : Except Refused α) : Except EngineError α := outcome.mapError Refused.error

@[simp] theorem refuse_error (error : EngineError) (rs : ResourceState) (opens closes : List Span) (schedule : Bool)
    (now windowEnd : Ms) (limit : Nat) :
    (Offer.refuse error rs span opens closes schedule now windowEnd limit).error = error := by
  unfold Offer.refuse
  split <;> rfl

/-- The same checks pass or fail, whatever a refusal would offer. -/
theorem admitOne_verdict (timelines : ∀ r rs, e.store.getResource r = some rs → rs.Timeline) (proper : span.start < span.end)
    {rules rules' : InheritedRules} (agree : rules.Agree span rules') (id r : Ulid) (windowEnd windowEnd' : Ms)
    (limit limit' : Nat) : verdict (e.admitOne id r span rules windowEnd limit) =
      verdict (e.admitOne id r span rules' windowEnd' limit') := by
  unfold admitOne
  cases present : e.store.getResource r with
  | none => rfl
  | some guard =>
      simp only
      split
      · rfl
      · rw [checkRulesAdmit_agree (timelines r guard present) proper agree]
        split
        · simp [verdict, Except.mapError]
        · rfl

/-- Over the span, two requests for offers collect rules that agree. -/
theorem ruleContext_agree (timelines : ∀ r rs, e.store.getResource r = some rs → rs.Timeline) (proper : span.start < span.end)
    (valid : validateSpan span = .ok ()) (r : Ulid) (limit : Nat) :
    Same (InheritedRules.Agree span) (e.ruleContext r span 0) (e.ruleContext r span limit) := by
  obtain ⟨starts, ends⟩ := offerWindow_contains span valid limit
  unfold ruleContext
  apply Same.bind (.of_eq rfl)
  exact fun _ _ _ => InMemoryStore.collectInheritedRules_agree proper starts ends timelines r _

theorem verdict_bind {α β : Type} (c : Except Refused α) (f : α → Except Refused β) :
    verdict (c >>= f) = verdict c >>= fun a => verdict (f a) := by
  cases c <;> rfl

theorem verdict_refusing {α : Type} (c : Except EngineError α) : verdict (refusing c) = c := by
  cases c <;> rfl

theorem checkHold_verdict (timelines : ∀ r rs, e.store.getResource r = some rs → rs.Timeline) (proper : span.start < span.end)
    (id r : Ulid) (requested : Ms) (limit : Nat) :
    verdict (e.checkHold id r span requested 0) = verdict (e.checkHold id r span requested limit) := by
  apply Same.eq
  unfold checkHold
  rw [verdict_bind, verdict_bind, verdict_refusing, verdict_refusing]
  cases valid : validateSpan span with
  | error error => exact .error error
  | ok u =>
      apply Same.bind (Q := fun a b => a.1 = b.1 ∧ a.2.Agree span b.2)
      · apply Same.bind (.of_eq rfl)
        rintro _ _ _
        apply Same.bind (.of_eq rfl)
        rintro expiresAt _ rfl
        apply (ruleContext_agree timelines proper valid r limit).bind
        exact fun _ _ agree => .ok ⟨rfl, agree⟩
      · rintro ⟨expiresAt, rules⟩ ⟨_, rules'⟩ ⟨rfl, agree⟩
        apply Same.of_eq
        simp only
        rw [verdict_bind, verdict_bind, admitOne_verdict timelines proper agree]

theorem checkBooking_verdict (timelines : ∀ r rs, e.store.getResource r = some rs → rs.Timeline)
    (proper : span.start < span.end) (id r : Ulid) (label : Option String) (limit : Nat) :
    verdict (e.checkBooking id r span label 0) = verdict (e.checkBooking id r span label limit) := by
  apply Same.eq
  unfold checkBooking
  rw [verdict_bind, verdict_bind, verdict_refusing, verdict_refusing]
  cases valid : validateSpan span with
  | error error => exact .error error
  | ok u =>
      apply Same.bind (Q := InheritedRules.Agree span)
      · apply Same.bind (.of_eq rfl)
        rintro _ _ _
        apply Same.bind (.of_eq rfl)
        exact fun _ _ _ => ruleContext_agree timelines proper valid r limit
      · intro rules rules' agree
        exact .of_eq (admitOne_verdict timelines proper agree ..)

/-- Programs whose checks have the same verdict and that go on alike end alike. -/
theorem exec_verdict {α : Type} {c c' : Except Refused α} {f : α → OfferM Unit} (same : verdict c = verdict c') (e : Engine) :
    verdict (exec (liftM c >>= f : OfferM Unit) e).1 = verdict (exec (liftM c' >>= f : OfferM Unit) e).1 ∧
      (exec (liftM c >>= f : OfferM Unit) e).2 = (exec (liftM c' >>= f : OfferM Unit) e).2 := by
  rw [exec_bind, exec_bind, exec_check, exec_check]
  cases c with
  | error refused =>
      cases c' with
      | error refused' =>
          have errors : refused.error = refused'.error := Except.error.inj same
          exact ⟨congrArg Except.error errors, rfl⟩
      | ok a => cases same
  | ok a =>
      cases c' with
      | error refused' => cases same
      | ok a' =>
          cases same
          exact ⟨rfl, rfl⟩

/-- Asking for offers never changes the verdict, nor what is left. -/
theorem offers_keep_verdict (timelines : ∀ r rs, e.store.getResource r = some rs → rs.Timeline) (id r : Ulid)
    (proper : span.start < span.end) (limit limit' : Nat) :
    (∀ expiresAt, verdict (exec (placeHoldOffering id r span expiresAt limit) e).1 =
        verdict (exec (placeHoldOffering id r span expiresAt limit') e).1 ∧
      (exec (placeHoldOffering id r span expiresAt limit) e).2 = (exec (placeHoldOffering id r span expiresAt limit') e).2) ∧
    ∀ label, verdict (exec (confirmBookingOffering id r span label limit) e).1 =
        verdict (exec (confirmBookingOffering id r span label limit') e).1 ∧
      (exec (confirmBookingOffering id r span label limit) e).2 =
        (exec (confirmBookingOffering id r span label limit') e).2 := by
  constructor
  · intro expiresAt
    have same := (checkHold_verdict timelines proper id r expiresAt limit).symm.trans
      (checkHold_verdict timelines proper id r expiresAt limit')
    exact exec_verdict same e
  · intro label
    have same := (checkBooking_verdict timelines proper id r label limit).symm.trans
      (checkBooking_verdict timelines proper id r label limit')
    exact exec_verdict same e

/-- A room under its building, asked for with and without offers. -/
theorem room_verdict : verdict (exec (confirmBookingOffering 30 2 ⟨0, 86400000⟩ none 0) openSeason).1 =
    verdict (exec (confirmBookingOffering 30 2 ⟨0, 86400000⟩ none 3) openSeason).1 := by
  have tree := openSeason_reachable.wellFormedTree
  have proper : (⟨0, 86400000⟩ : Span).start < (⟨0, 86400000⟩ : Span).end := by decide
  exact ((offers_keep_verdict tree.timelines 30 2 proper 0 3).2 none).1

end Engine

end Deltat
