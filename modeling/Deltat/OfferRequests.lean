import Deltat.OfferedSpans

/-! # Refusals with an offer

Each request that can be refused with an offer ranks it over the rules it had collected, with the
clock it was refused at. So its alternatives can all be taken, as far as the limit on intervals allows.
-/

namespace Deltat

open Lib Lib.Outcome Limits Availability Conflict

namespace Engine

variable {e : Engine} {r : Ulid} {guard : ResourceState} {span : Span} {limit : Nat} {offer : CounterOffer} {ids : List Ulid}

/-- The requests whose refusal can carry an offer. -/
inductive OfferRequest where
  | hold (id resourceId : Ulid) (span : ProperSpan) (expiresAt : Ms)
  | booking (id resourceId : Ulid) (span : ProperSpan) (label : Option String)
  | commit (holdId bookingId : Ulid) (label : Option String)

namespace OfferRequest

def run (offerLimit : Nat) : OfferRequest → OfferM Unit
  | hold id resourceId span expiresAt => placeHoldOffering id resourceId span.1 expiresAt offerLimit
  | booking id resourceId span label => confirmBookingOffering id resourceId span.1 label offerLimit
  | commit holdId bookingId label => commitHoldsOffering [(holdId, bookingId, label)] offerLimit

/-- The resource and the span that a request asks for: those of its hold, for a commit. -/
def target (e : Engine) : OfferRequest → Option (Ulid × Span)
  | hold _ resourceId span _ => some (resourceId, span.1)
  | booking _ resourceId span _ => some (resourceId, span.1)
  | commit holdId _ _ => do
      let resourceId ← e.store.getResourceForEntity holdId
      let guard ← e.store.getResource resourceId
      let hold ← guard.intervals.find? (·.id = holdId)
      return (resourceId, hold.span)

end OfferRequest

/-- An offer is what ranking gives for a span that the checks refuse. -/
structure Ranked (e : Engine) (r : Ulid) (guard : ResourceState) (span : Span) (limit : Nat) (offer : CounterOffer)
    (rules : InheritedRules) : Prop where
  admitted : span.Admitted
  context : e.ruleContext r span limit = .ok rules
  refused : ¬ (checkRulesAdmit guard span rules.nonBlocking rules.blocking rules.ancestorHasSchedule = .ok () ∧
    checkNoConflict guard span e.clock = .ok ())
  offered : offer = Offer.rank guard span rules.nonBlocking rules.blocking rules.ancestorHasSchedule e.clock
    (Offer.offerWindow span limit).end limit

theorem refuse_offer {error : EngineError} {opens closes : List Span} {schedule : Bool} {now windowEnd : Ms}
    (offered : (Offer.refuse error guard span opens closes schedule now windowEnd limit).offer = some offer) :
    limit ≠ 0 ∧ offer = Offer.rank guard span opens closes schedule now windowEnd limit := by
  unfold Offer.refuse at offered
  split at offered
  · cases offered
  · next asked =>
      simp only [not_or] at asked
      exact ⟨asked.1, (Option.some.inj offered).symm⟩

theorem refusing_offer {α : Type} {c : Except EngineError α} {refused : Refused} (denied : refusing c = .error refused) :
    refused.offer = none := by
  cases c with
  | error error =>
      cases denied
      rfl
  | ok a => cases denied

/-- A single allocation that is refused with an offer was ranked over the rules it collected. -/
theorem admitOne_offer {id : Ulid} {rules : InheritedRules} {windowEnd : Ms} {refused : Refused}
    (denied : e.admitOne id r span rules windowEnd limit = .error refused) (offered : refused.offer = some offer)
    (present : e.store.getResource r = some guard) :
    ¬ (checkRulesAdmit guard span rules.nonBlocking rules.blocking rules.ancestorHasSchedule = .ok () ∧
      checkNoConflict guard span e.clock = .ok ()) ∧
    offer = Offer.rank guard span rules.nonBlocking rules.blocking rules.ancestorHasSchedule e.clock windowEnd limit := by
  unfold admitOne at denied
  rw [present] at denied
  simp only at denied
  split at denied
  · cases denied
    cases offered
  · split at denied
    · next error failed =>
        cases denied
        refine ⟨fun accepted => ?_, (refuse_offer offered).2⟩
        rw [accepted.1, accepted.2] at failed
        cases failed
    · cases denied

/-- Programs that check before they write fail with the refusal of the check, and leave the engine. -/
theorem exec_refused {α : Type} {c : Except Refused α} {f : α → OfferM Unit} {refused : Refused}
    (writes : ∀ a, (exec (f a) e).1 = .ok ()) (denied : (exec (liftM c >>= f : OfferM Unit) e).1 = .error refused) :
    c = .error refused ∧ (exec (liftM c >>= f : OfferM Unit) e).2 = e := by
  rw [exec_bind, exec_check] at denied ⊢
  cases c with
  | error refused' =>
      cases denied
      exact ⟨rfl, rfl⟩
  | ok a =>
      have written := writes a
      simp only at denied
      rw [written] at denied
      cases denied

/-- On a working log a write succeeds. -/
theorem exec_write_ok (h : e.Healthy) (locked : List Ulid) (records : List Event) :
    (exec (ExceptT.adapt Refused.ofError (persistEarly locked records)) e).1 = .ok () := by
  rw [exec_adapt, exec_persistEarly h.running h.noFault]
  rfl

theorem bind_error {ε α β : Type} {x : Except ε α} {f : α → Except ε β} {error : ε} :
    (x >>= f) = .error error ↔ x = .error error ∨ ∃ a, x = .ok a ∧ f a = .error error := by
  cases x with
  | error error' => simp [Bind.bind, Except.bind]
  | ok a => simp [Bind.bind, Except.bind]

section Requests

variable (h : e.Healthy) (present : e.store.getResource r = some guard) {refused : Refused} (offered : refused.offer = some offer)
include h present offered

theorem hold_ranked {id : Ulid} {expiresAt : Ms} (proper : span.Valid)
    (denied : (exec (placeHoldOffering id r span expiresAt limit) e).1 = .error refused) :
    (exec (placeHoldOffering id r span expiresAt limit) e).2 = e ∧ ∃ rules, e.Ranked r guard span limit offer rules := by
  have writes : ∀ expiresAt, (exec (do
      watchHoldExpiry expiresAt
      persistEarly [r] [.holdPlaced id r span expiresAt] : OfferM Unit) e).1 = .ok () := by
    intro expiresAt
    have watching : ({ e with
        earliestHoldExpiry := min e.earliestHoldExpiry expiresAt
        holdGeneration := e.holdGeneration + 1 } : Engine).Healthy := ⟨h.running, h.noFault, h.consistent⟩
    exact exec_write_ok watching [r] [.holdPlaced id r span expiresAt]
  obtain ⟨failed, kept⟩ := exec_refused writes denied
  refine ⟨kept, ?_⟩
  rcases bind_error.mp failed with early | ⟨⟨clamped, rules⟩, context, late⟩
  · rw [refusing_offer early] at offered
    cases offered
  · obtain ⟨_, valid, context⟩ := bind_ok.mp (refusing_ok.mp context)
    obtain ⟨_, _, context⟩ := bind_ok.mp context
    obtain ⟨rules', collected, same⟩ := bind_ok.mp context
    cases same
    have late : e.admitOne id r span rules (Offer.offerWindow span limit).end limit = .error refused :=
      (bind_error.mp late).resolve_right (by rintro ⟨_, _, last⟩; cases last)
    obtain ⟨notAccepted, ranked⟩ := admitOne_offer late offered present
    exact ⟨rules, validateSpan_admits proper valid, collected, notAccepted, ranked⟩

theorem booking_ranked {id : Ulid} {label : Option String} (proper : span.Valid)
    (denied : (exec (confirmBookingOffering id r span label limit) e).1 = .error refused) :
    (exec (confirmBookingOffering id r span label limit) e).2 = e ∧ ∃ rules, e.Ranked r guard span limit offer rules := by
  obtain ⟨failed, kept⟩ := exec_refused (fun _ => exec_write_ok h [r] [.bookingConfirmed id r span label]) denied
  refine ⟨kept, ?_⟩
  rcases bind_error.mp failed with early | ⟨rules, context, late⟩
  · rw [refusing_offer early] at offered
    cases offered
  · obtain ⟨_, valid, context⟩ := bind_ok.mp (refusing_ok.mp context)
    obtain ⟨_, _, collected⟩ := bind_ok.mp context
    obtain ⟨notAccepted, ranked⟩ := admitOne_offer late offered present
    exact ⟨rules, validateSpan_admits proper valid, collected, notAccepted, ranked⟩

/-- A commit that is refused with an offer was weighed on a root with a schedule of its own. -/
theorem admitCommit_offer {holdId bookingId : Ulid} {label : Option String} {hold : Interval}
    (found : guard.intervals.find? (·.id = holdId) = some hold)
    (denied : e.admitCommit limit holdId bookingId label r = .error refused) :
    e.Ranked r guard hold.span limit offer ⟨[], [], false⟩ := by
  have wf := h.consistent.wellFormed r guard present
  have admitted := (wf.admitted hold (List.mem_of_find?_eq_some found)).span
  unfold admitCommit at denied
  split at denied
  · cases denied
    cases offered
  · next guard' span resolved =>
      obtain ⟨guard'', here, resolved⟩ := bind_ok.mp resolved
      obtain rfl : guard = guard'' := Option.some.inj (present.symm.trans (resource_ok.mp here))
      obtain ⟨hold', first, resolved⟩ := bind_ok.mp resolved
      obtain rfl : hold = hold' := Option.some.inj (found.symm.trans (findIntervalOfKind_ok.mp first).1)
      obtain ⟨_, _, same⟩ := bind_ok.mp resolved
      cases same
      split at denied
      · next error conflict =>
          cases denied
          obtain ⟨asked, ranked⟩ := refuse_offer offered
          have root : (guard.parentId.isNone && guard.hasNonBlockingRule) = true := by
            by_contra child
            rw [if_neg child] at asked
            exact asked rfl
          rw [if_pos root] at ranked
          have top : e.store.getParent r = none := by
            rw [h.consistent.parents, present]
            exact Option.isNone_iff_eq_none.mp ((Bool.and_eq_true _ _).mp root).1
          refine ⟨admitted, bind_ok.mpr ⟨guard, here, ?_⟩, fun accepted => ?_, ranked⟩
          · rw [top, InMemoryStore.collectInheritedRules, InMemoryStore.ancestorChain_none]
            rfl
          · -- With its own hold counted, the span would have to be free even of that.
            have room := (checkNoConflictExcluding_ok wf admitted).mp accepted.2
            have others : checkNoConflictExcluding guard hold.span e.clock (some holdId) = .ok () := by
              apply (checkNoConflictExcluding_ok wf admitted).mpr
              intro t occupied
              apply lt_of_le_of_lt _ (room t occupied)
              apply List.countP_mono_left
              intro i _ counted
              simp only [Bool.and_eq_true] at counted ⊢
              exact ⟨⟨by simp, counted.1.2⟩, counted.2⟩
            rw [others] at conflict
            cases conflict
      · cases denied

theorem commit_ranked {holdId bookingId : Ulid} {label : Option String} {hold : Interval}
    (located : e.store.getResourceForEntity holdId = some r) (found : guard.intervals.find? (·.id = holdId) = some hold)
    (denied : (exec (commitHoldsOffering [(holdId, bookingId, label)] limit) e).1 = .error refused) :
    (exec (commitHoldsOffering [(holdId, bookingId, label)] limit) e).2 = e ∧
      ∃ rules, e.Ranked r guard hold.span limit offer rules := by
  have writes : ∀ admitted : List Ulid × List HoldCommit, (exec (ExceptT.adapt Refused.ofError
      (persistEarly (ascending admitted.1) [.holdsCommitted admitted.2])) e).1 = .ok () := fun admitted => exec_write_ok h _ _
  obtain ⟨failed, kept⟩ := exec_refused writes denied
  refine ⟨kept, ⟨[], [], false⟩, ?_⟩
  rcases bind_error.mp failed with early | ⟨rids, resolved, late⟩
  · rw [refusing_offer early] at offered
    cases offered
  · have resolved := resolveCommits_ok.mp (refusing_ok.mp resolved)
    have located' := resolved.located
    cases located' with
    | cons first none' =>
        cases none'
        obtain rfl := Option.some.inj (located.symm.trans first)
        have entry : e.admitCommits [(holdId, bookingId, label)] [r] limit = .error refused :=
          (bind_error.mp late).resolve_right (by rintro ⟨_, _, last⟩; cases last)
        unfold admitCommits at entry
        rw [List.zip_cons_cons, List.zip_nil_left, List.mapM_cons] at entry
        rcases bind_error.mp entry with here | ⟨_, _, last⟩
        · exact admitCommit_offer h present offered found here
        · cases last

end Requests

/-- Every counter-offer can be taken, as long as the resource has room for so many intervals more.
    The refusal leaves the engine as it was. -/
theorem counter_offers_takeable_iff {allowed : Engine → Move → Prop} (reached : Reachable allowed e) (request : OfferRequest)
    (positive : 0 < limit) {refused : Refused} (denied : (exec (request.run limit) e).1 = .error refused)
    (offered : refused.offer = some offer) (target : request.target e = some (r, span))
    (present : e.store.getResource r = some guard) (idsNodup : ids.Nodup)
    (unused : ∀ id ∈ ids, e.store.getResourceForEntity id = none) (enough : ids.length = offer.alternatives.length) :
    (exec (request.run limit) e).2 = e ∧ (e.Takeable r guard span limit offer ids ↔ e.RoomFor r guard span limit) := by
  have h := reached.healthy
  have ranked : (exec (request.run limit) e).2 = e ∧ ∃ rules, e.Ranked r guard span limit offer rules := by
    cases request with
    | hold id resourceId asked expiresAt =>
        cases target
        exact hold_ranked h present offered asked.2 denied
    | booking id resourceId asked label =>
        cases target
        exact booking_ranked h present offered asked.2 denied
    | commit holdId bookingId label =>
        obtain ⟨_, located, target⟩ := Option.bind_eq_some_iff.mp target
        obtain ⟨_, here, target⟩ := Option.bind_eq_some_iff.mp target
        obtain ⟨hold, found, same⟩ := Option.bind_eq_some_iff.mp target
        cases same
        obtain rfl := Option.some.inj (present.symm.trans here)
        exact commit_ranked h present offered located found denied
  obtain ⟨kept, rules, ranked⟩ := ranked
  exact ⟨kept, takeable_iff h reached.wellFormedTree present ranked.admitted positive ranked.context ranked.refused ranked.offered
    idsNodup unused enough⟩

/-! ## A resource that is almost full -/

/-- The opening hours of a resource that opens twice, behind rules that close its first instants. -/
def openTwice (closing : List Interval) : List Interval :=
  ⟨200002, ⟨40, 50⟩, .nonBlocking⟩ :: ⟨200001, ⟨20, 30⟩, .nonBlocking⟩ :: closing

/-- One root with one seat, and rules as listed. -/
structure RuledBy (e : Engine) (rs : ResourceState) (rules : List Interval) : Prop where
  healthy : e.Healthy
  only : ∀ r, e.store.getResource r = if r = 0 then some rs else none
  root : rs.parentId = none
  single : rs.capacity = 1
  unbuffered : rs.bufferAfter = none
  listed : rs.intervals.Perm rules

namespace RuledBy

variable {rs : ResourceState} {rules : List Interval}

theorem present (ruled : e.RuledBy rs rules) : e.store.getResource 0 = some rs := by rw [ruled.only, if_pos rfl]

theorem unused (ruled : e.RuledBy rs rules) {x : Ulid} (fresh : ∀ i ∈ rules, i.id ≠ x) : e.store.getResourceForEntity x = none := by
  apply Option.eq_none_iff_forall_ne_some.mpr
  intro r located
  obtain ⟨rs', found, held⟩ := (ruled.healthy.consistent.entities x r).mp located
  rw [ruled.only] at found
  split at found
  · cases found
    obtain ⟨i, inside, same⟩ := List.mem_map.mp held
    exact fresh i (ruled.listed.mem_iff.mp inside) same
  · cases found

theorem addRule (ruled : e.RuledBy rs rules) {id : Ulid} {span : ProperSpan} (valid : validateSpan span.1 = .ok ())
    (fresh : ∀ i ∈ rules, i.id ≠ id) (room : rules.length < maxIntervalsPerResource) (blocking : Bool) :
    ∃ rs', (e.next (.op (.addRule id 0 span blocking))).RuledBy rs' (⟨id, span.1, .ofBlocking blocking⟩ :: rules) := by
  have h := ruled.healthy
  have top : e.store.getParent 0 = none := by
    rw [h.consistent.parents, ruled.present]
    exact ruled.root
  have passed : e.checkAddRule id 0 span.1 blocking = .ok () := by
    refine bind_ok.mpr ⟨(), valid, bind_ok.mpr ⟨rs, resource_ok.mpr ruled.present, bind_ok.mpr ⟨(), ?_, bind_ok.mpr ⟨(), ?_, ?_⟩⟩⟩⟩
    · unfold checkRuleCoverage
      rw [top]
      cases blocking <;> rfl
    · exact rejectReusedId_ok.mpr (ruled.unused fresh)
    · exact checkIntervalLimit_ok.mpr (by rw [ruled.listed.length_eq]; exact room)
  have ran : (e.next (.op (.addRule id 0 span blocking))) = { e with
      store := e.store.replayOn 0 (.ruleAdded id 0 span.1 blocking)
      log := e.log ++ [.ruleAdded id 0 span.1 blocking] } := by
    change (exec (Engine.addRule id 0 span.1 blocking) e).2 = _
    unfold Engine.addRule
    rw [exec_bind_ok (exec_get e), passed, exec_bind_ok (exec_check _ _), exec_persistAndApply h.running h.noFault]
  have wrote := wrote_single h rfl (applies_ruleAdded span.2 passed)
  rw [ran]
  refine ⟨rs.insertInterval ⟨id, span.1, .ofBlocking blocking⟩, wrote.healthy, fun r => ?_, ruled.root, ruled.single,
    ruled.unbuffered, (ResourceState.insertInterval_perm _).trans (ruled.listed.cons _)⟩
  rw [wrote.table, List.foldl_cons, List.foldl_nil, Event.stepOn_change rfl, ruled.only]
  by_cases zero : r = 0
  · rw [zero, if_pos rfl, if_pos rfl]
    rfl
  · rw [if_neg zero, if_neg zero]
    rfl

variable {closing : List Interval} (ruled : e.RuledBy rs (openTwice closing))
  (closes : ∀ i ∈ closing, i.kind = .blocking ∧ i.span = ⟨0, 10⟩)
include ruled closes

theorem opens_iff (t : Ms) : rs.hasRuleAt .nonBlocking t = true ↔ Covers [⟨20, 30⟩, ⟨40, 50⟩] t := by
  have others : (closing.any fun i => decide (i.kind = .nonBlocking) && i.span.containsInstant t) = false := by
    apply List.any_eq_false.mpr
    intro i inside
    rw [(closes i inside).1]
    simp
  unfold ResourceState.hasRuleAt
  rw [ruled.listed.any_eq, openTwice, List.any_cons, List.any_cons, others, covers_cons, covers_cons, or_iff_left covers_nil]
  simp [Span.containsInstant, or_comm]

theorem closes_before {t : Ms} (closed : rs.hasRuleAt .blocking t = true) : t < 10 := by
  unfold ResourceState.hasRuleAt at closed
  rw [ruled.listed.any_eq, openTwice, List.any_cons, List.any_cons, Bool.or_eq_true, Bool.or_eq_true] at closed
  rcases closed with impossible | impossible | closed
  · simp at impossible
  · simp at impossible
  · obtain ⟨i, inside, here⟩ := List.any_eq_true.mp closed
    rw [(closes i inside).2] at here
    simp only [Span.containsInstant, Bool.and_eq_true, decide_eq_true_eq] at here
    exact here.2.2

theorem quiet (now t : Ms) : rs.liveAt now t = 0 := by
  unfold ResourceState.liveAt
  rw [List.countP_eq_zero]
  intro i inside
  have rule : i.kind = .nonBlocking ∨ i.kind = .blocking := by
    rcases List.mem_cons.mp (ruled.listed.mem_iff.mp inside) with rfl | inside
    · exact .inl rfl
    · rcases List.mem_cons.mp inside with rfl | inside
      · exact .inl rfl
      · exact .inr (closes i inside).1
  rcases rule with kind | kind <;> simp [kind, IntervalKind.live]

omit closes in
theorem scheduled : rs.hasNonBlockingRule = true := by
  unfold ResourceState.hasNonBlockingRule
  rw [ruled.listed.any_eq]
  rfl

/-- The free time of a window around both openings is just the openings. -/
theorem availability_eq (now : Ms) : availability rs ⟨0, 604800000⟩ [] [] now = [⟨20, 30⟩, ⟨40, 50⟩] := by
  have wf := ruled.healthy.consistent.wellFormed 0 rs ruled.present
  have windowed : Windowed ⟨0, 604800000⟩ ⟨[], [], false⟩ :=
    ⟨List.forall_mem_nil _, List.forall_mem_nil _, fun _ covered => absurd covered covers_nil, fun _ => rfl⟩
  apply (ResourceState.availability_separate wf.timeline.orderly (by decide) (List.forall_mem_nil _) (List.forall_mem_nil _)).eq
    ⟨by decide, by decide⟩
  intro t
  have means (lower : 0 ≤ t) (upper : t < 604800000) := @ResourceState.availability_covers rs ⟨0, 604800000⟩ t now wf.timeline
    [] [] lower upper (upper.trans (by decide))
  constructor
  · intro free
    obtain ⟨lower, upper⟩ := Offer.free_within windowed free
    have opened := ((means lower upper).mp free).1
    rw [if_pos ruled.scheduled] at opened
    exact (ruled.opens_iff closes t).mp opened
  · intro covered
    have window : 10 ≤ t ∧ t < 604800000 := by
      rw [covers_cons, covers_cons, or_iff_left covers_nil] at covered
      lia
    apply (means (by lia) window.2).mpr
    rw [if_pos ruled.scheduled, ruled.quiet closes]
    refine ⟨(ruled.opens_iff closes t).mpr covered, ?_, covers_nil, by simp⟩
    by_contra closed
    have before := ruled.closes_before closes ((Bool.not_eq_false _).mp closed)
    lia

omit closes in
theorem context (span : Span) (limit : Nat) : e.ruleContext 0 span limit = .ok ⟨[], [], false⟩ := by
  have top : e.store.getParent 0 = none := by
    rw [ruled.healthy.consistent.parents, ruled.present]
    exact ruled.root
  refine bind_ok.mpr ⟨rs, resource_ok.mpr ruled.present, ?_⟩
  rw [top, InMemoryStore.collectInheritedRules, InMemoryStore.ancestorChain_none]
  rfl

theorem roomyRuns_eq (now : Ms) : Offer.roomyRuns rs ⟨0, 10⟩ [] [] now (Offer.offerWindow ⟨0, 10⟩ 3).end = [⟨20, 30⟩, ⟨40, 50⟩] := by
  have window : (Offer.offerWindow ⟨0, 10⟩ 3).end = 604800000 := by decide
  have buffer : rs.buffer = 0 := by
    rw [ResourceState.buffer, ruled.unbuffered]
    rfl
  rw [window, Offer.roomyRuns, ruled.availability_eq closes, buffer]
  rfl

/-- A request before the first opening is refused, and comes with an offer. -/
theorem early_refused (room : closing.length + 2 < maxIntervalsPerResource) (fresh : ∀ i ∈ openTwice closing, i.id ≠ 200003) :
    ∃ refused offer, (exec (OfferRequest.run 3 (.booking 200003 0 ⟨⟨0, 10⟩, valid_0_10⟩ none)) e).1 = .error refused ∧
      refused.offer = some offer ∧ offer.alternatives = [⟨20, 30⟩, ⟨40, 50⟩] := by
  have wf := ruled.healthy.consistent.wellFormed 0 rs ruled.present
  have below : rs.intervals.length < maxIntervalsPerResource := by
    rw [ruled.listed.length_eq]
    exact room
  have free : (do e.rejectReusedId 200003; checkIntervalLimit rs : Except EngineError Unit) = .ok () :=
    bind_ok.mpr ⟨(), rejectReusedId_ok.mpr (ruled.unused fresh), checkIntervalLimit_ok.mpr below⟩
  obtain ⟨uncovered, closed⟩ : ∃ uncovered,
      checkRulesAdmit rs ⟨0, 10⟩ [] [] false = .error (.closedBySchedule ⟨0, 10⟩ uncovered) := by
    have denied : checkRulesAdmit rs ⟨0, 10⟩ [] [] false ≠ .ok () := by
      intro admitted
      have opened := ((checkRulesAdmit_iff wf.timeline [] [] false (.inl ruled.scheduled)).mp admitted 0 le_rfl (by decide)).1
      rw [if_pos ruled.scheduled, ruled.opens_iff closes] at opened
      exact absurd opened (by decide)
    exact checkRulesAdmit_refusal denied
  have rules : (refusing (do
      validateSpan ⟨0, 10⟩
      validateLabel none
      e.ruleContext 0 ⟨0, 10⟩ 3) : Except Refused InheritedRules) = .ok ⟨[], [], false⟩ :=
    refusing_ok.mpr (bind_ok.mpr ⟨(), rfl, bind_ok.mpr ⟨(), rfl, ruled.context _ _⟩⟩)
  have refused : e.checkBooking 200003 0 ⟨0, 10⟩ none 3 = .error (Offer.refuse (.closedBySchedule ⟨0, 10⟩ uncovered) rs ⟨0, 10⟩
      [] [] false e.clock (Offer.offerWindow ⟨0, 10⟩ 3).end 3) := by
    unfold checkBooking
    rw [rules]
    change e.admitOne 200003 0 ⟨0, 10⟩ ⟨[], [], false⟩ _ 3 = _
    unfold admitOne
    rw [ruled.present]
    simp only [free, closed]
    rfl
  have windowed : Windowed ⟨0, (Offer.offerWindow ⟨0, 10⟩ 3).end⟩ ⟨[], [], false⟩ :=
    ⟨List.forall_mem_nil _, List.forall_mem_nil _, fun _ covered => absurd covered covers_nil, fun _ => rfl⟩
  have run : exec (OfferRequest.run 3 (.booking 200003 0 ⟨⟨0, 10⟩, valid_0_10⟩ none)) e =
      exec (liftM (e.checkBooking 200003 0 ⟨0, 10⟩ none 3) >>= fun _ =>
        liftM (persistEarly [0] [.bookingConfirmed 200003 0 ⟨0, 10⟩ none]) : OfferM Unit) e := rfl
  refine ⟨Offer.refuse (.closedBySchedule ⟨0, 10⟩ uncovered) rs ⟨0, 10⟩ [] [] false e.clock (Offer.offerWindow ⟨0, 10⟩ 3).end 3,
    Offer.rank rs ⟨0, 10⟩ [] [] false e.clock (Offer.offerWindow ⟨0, 10⟩ 3).end 3, ?_, rfl, ?_⟩
  · rw [run, refused, exec_bind_error (exec_check _ _)]
  · have alternatives := @Offer.rank_alternatives rs ⟨0, 10⟩ ⟨[], [], false⟩ e.clock 3 _ wf (by decide) windowed
      ⟨by decide, by decide, by decide, by decide⟩ (by decide) (by decide)
    rw [alternatives, ruled.roomyRuns_eq closes]
    rfl

end RuledBy

/-- The resource with so many closing rules, opened twice behind them. -/
def twiceOpened (n : Nat) : Engine :=
  ((crowded n).next (.op (.addRule 200001 0 ⟨⟨20, 30⟩, valid_20_30⟩ false))).next
    (.op (.addRule 200002 0 ⟨⟨40, 50⟩, valid_40_50⟩ false))

theorem twiceOpened_reachable (n : Nat) : Reachable (fun _ _ => True) (twiceOpened n) :=
  .step _ (.step _ (crowded_reachable n) trivial trivial) trivial trivial

theorem twiceOpened_ruled (n : Nat) (room : n + 2 ≤ maxIntervalsPerResource) : ∃ rs closing, (twiceOpened n).RuledBy rs (openTwice closing) ∧
    closing.length = n ∧ ∀ i ∈ closing, i.kind = .blocking ∧ i.span = ⟨0, 10⟩ ∧ i.id.val ≤ n := by
  obtain ⟨rs, crowd⟩ := crowded_crowd n (by omega)
  have ruled : (crowded n).RuledBy rs rs.intervals := ⟨crowd.healthy, crowd.only, crowd.root, crowd.single, crowd.unbuffered, .refl _⟩
  have apart : ∀ x : Ulid, 200000 < x.val → ∀ i ∈ rs.intervals, i.id ≠ x := by
    rintro x beyond i inside rfl
    have bound := (crowd.rules i inside).2.2
    simp only [maxIntervalsPerResource] at room
    omega
  obtain ⟨rs₁, first⟩ := @RuledBy.addRule _ _ _ ruled 200001 ⟨⟨20, 30⟩, valid_20_30⟩ rfl (apart _ (by decide))
    (by rw [crowd.count]; omega) false
  obtain ⟨rs₂, second⟩ := @RuledBy.addRule _ _ _ first 200002 ⟨⟨40, 50⟩, valid_40_50⟩ rfl
    (List.forall_mem_cons.mpr ⟨by decide, apart _ (by decide)⟩) (by rw [List.length_cons, crowd.count]; omega) false
  exact ⟨rs₂, rs.intervals, second, crowd.count, crowd.rules⟩

/-- What a request before the first opening finds there. -/
theorem twiceOpened_offer (n : Nat) (room : n + 2 < maxIntervalsPerResource) : ∃ guard refused offer,
    (twiceOpened n).store.getResource 0 = some guard ∧ guard.intervals.length = n + 2 ∧
      (exec (OfferRequest.run 3 (.booking 200003 0 ⟨⟨0, 10⟩, valid_0_10⟩ none)) (twiceOpened n)).1 = .error refused ∧
      refused.offer = some offer ∧ offer.alternatives = [⟨20, 30⟩, ⟨40, 50⟩] ∧
      (∀ id ∈ [(200003 : Ulid), 200004], (twiceOpened n).store.getResourceForEntity id = none) ∧
      (twiceOpened n).ruleContext 0 ⟨0, 10⟩ 3 = .ok ⟨[], [], false⟩ ∧
      Offer.roomyRuns guard ⟨0, 10⟩ [] [] (twiceOpened n).clock (Offer.offerWindow ⟨0, 10⟩ 3).end = [⟨20, 30⟩, ⟨40, 50⟩] := by
  obtain ⟨rs, closing, ruled, count, closes⟩ := twiceOpened_ruled n room.le
  have kinds : ∀ i ∈ closing, i.kind = .blocking ∧ i.span = ⟨0, 10⟩ := fun i inside =>
    ⟨(closes i inside).1, (closes i inside).2.1⟩
  have apart : ∀ x : Ulid, 200002 < x.val → ∀ i ∈ openTwice closing, i.id ≠ x := by
    intro x beyond i inside
    have bound : i.id.val ≤ 200002 := by
      rcases List.mem_cons.mp inside with rfl | inside
      · exact le_rfl
      · rcases List.mem_cons.mp inside with rfl | inside
        · decide
        · have small := (closes i inside).2.2
          simp only [maxIntervalsPerResource] at room
          omega
    rintro rfl
    omega
  obtain ⟨refused, offer, denied, offered, alternatives⟩ :=
    ruled.early_refused kinds (by rw [count]; exact room) (apart _ (by decide))
  refine ⟨rs, refused, offer, ruled.present, ?_, denied, offered, alternatives, ?_, ruled.context _ _, ruled.roomyRuns_eq kinds _⟩
  · rw [ruled.listed.length_eq, openTwice, List.length_cons, List.length_cons, count]
  · exact List.forall_mem_cons.mpr ⟨ruled.unused (apart _ (by decide)),
      List.forall_mem_singleton.mpr (ruled.unused (apart _ (by decide)))⟩

/-- One interval below the limit, the second of the two spans on offer cannot be booked after the first. -/
theorem second_offer_refused : Reachable (fun _ _ => True) (twiceOpened (maxIntervalsPerResource - 3)) ∧
    ∃ guard refused offer, (twiceOpened (maxIntervalsPerResource - 3)).store.getResource 0 = some guard ∧
      (exec (OfferRequest.run 3 (.booking 200003 0 ⟨⟨0, 10⟩, valid_0_10⟩ none)) (twiceOpened (maxIntervalsPerResource - 3))).1 =
        .error refused ∧ refused.offer = some offer ∧ offer.alternatives = [⟨20, 30⟩, ⟨40, 50⟩] ∧
      (∀ id ∈ [(200003 : Ulid), 200004], (twiceOpened (maxIntervalsPerResource - 3)).store.getResourceForEntity id = none) ∧
      ¬ (twiceOpened (maxIntervalsPerResource - 3)).Takeable 0 guard ⟨0, 10⟩ 3 offer [200003, 200004] := by
  have reached := twiceOpened_reachable (maxIntervalsPerResource - 3)
  obtain ⟨guard, refused, offer, present, count, denied, offered, alternatives, unused, _⟩ :=
    twiceOpened_offer (maxIntervalsPerResource - 3) (by decide)
  refine ⟨reached, guard, refused, offer, present, denied, offered, alternatives, unused, fun takeable => ?_⟩
  have booked := takeable.inTurn
  rw [alternatives] at booked
  have proper : ∀ c ∈ ([(200003, ⟨20, 30⟩, none), (200004, ⟨40, 50⟩, none)] : List Candidate), c.2.1.Valid := by decide
  have below := confirmAll_room reached.healthy present proper booked 1 (by decide)
  rw [count] at below
  exact absurd below (by decide)

/-- On a resource with two rules both spans can be booked. -/
theorem both_offers_taken : ∃ guard refused offer, (twiceOpened 0).store.getResource 0 = some guard ∧
    (exec (OfferRequest.run 3 (.booking 200003 0 ⟨⟨0, 10⟩, valid_0_10⟩ none)) (twiceOpened 0)).1 = .error refused ∧
    refused.offer = some offer ∧ offer.alternatives = [⟨20, 30⟩, ⟨40, 50⟩] ∧
    (twiceOpened 0).Takeable 0 guard ⟨0, 10⟩ 3 offer [200003, 200004] := by
  obtain ⟨guard, refused, offer, present, count, denied, offered, alternatives, unused, context, runs⟩ :=
    twiceOpened_offer 0 (by decide)
  have enough : [(200003 : Ulid), 200004].length = offer.alternatives.length := by
    rw [alternatives]
    rfl
  refine ⟨guard, refused, offer, present, denied, offered, alternatives, ?_⟩
  have positive : 0 < 3 := by decide
  apply (counter_offers_takeable_iff (twiceOpened_reachable 0) _ positive denied offered rfl present (by decide) unused enough).2.mpr
  intro rules collected k inside
  obtain rfl := Except.ok.inj (context.symm.trans collected)
  rw [runs] at inside
  have two : k < 2 := inside
  rw [count]
  simp only [maxIntervalsPerResource]
  omega

end Engine

end Deltat
