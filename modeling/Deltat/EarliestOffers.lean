import Deltat.OfferRequests

/-! # Counter-offers miss nothing

An offer lists, in order, where each free run of its window begins that is long enough for the
request and its turnaround. So no free time before the first alternative would have done, and when
there are fewer alternatives than were asked for, nothing else in the window would.
-/

namespace Deltat

open Lib Lib.Outcome Limits Conflict Availability

/-! ## Runs -/

theorem Separate.apart {spans : List Span} (separate : Separate spans) {s u : Span} (inside : s ∈ spans) (also : u ∈ spans) :
    s = u ∨ s.end < u.start ∨ u.end < s.start := by
  have both : spans.Pairwise fun a b => a.end < b.start ∨ b.end < a.start := separate.gaps.imp Or.inl
  have symmetric : Std.Symm fun a b : Span => a.end < b.start ∨ b.end < a.start := ⟨fun _ _ => Or.symm⟩
  by_cases same : s = u
  · exact .inl same
  · exact .inr (both.forall inside also same)

/-- A stretch that spans with gaps between them cover lies in one of them. -/
theorem Separate.stretch {spans : List Span} (separate : Separate spans) {low high : Ms} (proper : low < high)
    (covered : ∀ t, low ≤ t → t < high → Covers spans t) : ∃ s ∈ spans, s.start ≤ low ∧ high ≤ s.end := by
  obtain ⟨s, inside, started, notEnded⟩ := covered low le_rfl proper
  refine ⟨s, inside, started, ?_⟩
  by_contra short
  obtain ⟨u, also, before, behind⟩ := covered s.end notEnded.le (not_le.mp short)
  rcases separate.apart inside also with rfl | gap | gap <;> lia

/-- Right before such a span nothing is covered. -/
theorem Separate.edge {spans : List Span} (separate : Separate spans) {s : Span} (inside : s ∈ spans) :
    ¬ Covers spans (s.start - 1) := by
  rintro ⟨u, also, before, behind⟩
  have proper := separate.proper s inside
  rcases separate.apart inside also with rfl | gap | gap <;> lia

namespace Engine

variable {e : Engine} {r : Ulid} {guard : ResourceState} {span : Span} {limit : Nat} {offer : CounterOffer}
  {line : List ResourceState} {rules : InheritedRules}

/-- A request like the refused one could begin here: until its turnaround ends the resource is free,
    and that is within the window. -/
def CouldStart (e : Engine) (guard : ResourceState) (line : List ResourceState) (span : Span) (windowEnd x : Ms) : Prop :=
  x + span.durationMs + guard.buffer ≤ windowEnd ∧
    ∀ t, x ≤ t → t < x + span.durationMs + guard.buffer → guard.FreeUnder line e.clock t

/-- What an offer says of the window that was searched for it. -/
structure Complete (e : Engine) (guard : ResourceState) (line : List ResourceState) (span : Span) (limit : Nat)
    (offer : CounterOffer) (windowEnd : Ms) : Prop where
  apart : offer.alternatives.Pairwise fun a b => a.end + guard.buffer < b.start
  earliest : ∀ alternative ∈ offer.alternatives, alternative.durationMs = span.durationMs ∧
    e.CouldStart guard line span windowEnd alternative.start ∧
    (alternative.start = span.start ∨ ¬ guard.FreeUnder line e.clock (alternative.start - 1))
  missesNothing : ∀ x, span.start ≤ x → e.CouldStart guard line span windowEnd x →
    (∃ alternative ∈ offer.alternatives, alternative.start ≤ x ∧
      ∀ t, alternative.start ≤ t → t < x → guard.FreeUnder line e.clock t) ∨
    offer.alternatives.length = limit ∧ ∀ alternative ∈ offer.alternatives, alternative.end + guard.buffer < x

section Offered

variable (h : e.Healthy) (tree : e.store.WellFormedTree) (present : e.store.getResource r = some guard)
  (lineage : e.store.Ancestors r line) (ranked : e.Ranked r guard span limit offer rules) (positive : 0 < limit)
include h tree present lineage ranked positive

omit h in
/-- The runs of an offer's window are where the resource is free in it. -/
theorem window_covers (t : Ms) : Covers (availability guard ⟨span.start, (Offer.offerWindow span limit).end⟩
    rules.nonBlocking rules.blocking e.clock) t ↔
      span.start ≤ t ∧ t < (Offer.offerWindow span limit).end ∧ guard.FreeUnder line e.clock t := by
  obtain ⟨window, started, upper⟩ := Offer.offerWindow_eq ranked.admitted positive
  have windowed := ruleContext_windowed tree present ranked.admitted positive ranked.context
  obtain ⟨_, _, collected⟩ := bind_ok.mp ranked.context
  have shallow : line.length ≤ maxHierarchyDepth := by
    obtain ⟨other, lineage', shallow⟩ := tree.ancestors r guard present
    exact lineage.unique lineage' ▸ shallow
  have timelines : ∀ each ∈ guard :: line, each.Timeline := by
    intro each inside
    rcases List.mem_cons.mp inside with own | higher
    · exact own ▸ tree.timelines r guard present
    · obtain ⟨p, here⟩ := lineage.present each higher
      exact tree.timelines p each here
  rw [window, InMemoryStore.collectInheritedRules_ok lineage shallow] at collected
  have range : maxValidTimestampMs ≤ i64Max := by decide
  cases collected
  have means (from' : span.start ≤ t) (upTo : t < (Offer.offerWindow span limit).end) := @InMemoryStore.read_covers
    guard line e.clock t ⟨span.start, (Offer.offerWindow span limit).end⟩ timelines from' upTo (by lia)
  constructor
  · intro free
    obtain ⟨from', upTo⟩ := Offer.free_within windowed free
    exact ⟨from', upTo, (means from' upTo).mp free⟩
  · intro ⟨from', upTo, free⟩
    exact (means from' upTo).mpr free

theorem offer_complete : e.Complete guard line span limit offer (Offer.offerWindow span limit).end := by
  obtain ⟨_, started, upper⟩ := Offer.offerWindow_eq ranked.admitted positive
  have wf := h.consistent.wellFormed r guard present
  have windowed := ruleContext_windowed tree present ranked.admitted positive ranked.context
  have means := window_covers tree present lineage ranked positive
  have separate := @Offer.free_separate guard span rules e.clock _ wf started windowed
  have alternatives : offer.alternatives = ((Offer.roomyRuns guard span rules.nonBlocking rules.blocking e.clock
      (Offer.offerWindow span limit).end).take limit).map (Offer.atStart span) := by
    rw [ranked.offered]
    exact Offer.rank_alternatives wf started windowed ranked.admitted upper positive
  have fits : ∀ run ∈ Offer.roomyRuns guard span rules.nonBlocking rules.blocking e.clock (Offer.offerWindow span limit).end,
      (Offer.atStart span run).end + guard.buffer ≤ run.end := fun run roomy =>
    (Offer.roomyRuns_within wf started windowed roomy).2.1
  have gaps := (@Offer.roomyRuns_separate guard span rules e.clock _ wf started windowed).gaps
  refine ⟨?_, fun alternative inside => ?_, fun x after could => ?_⟩
  · rw [alternatives, List.pairwise_map]
    apply (gaps.sublist (List.take_sublist _ _)).imp_of_mem
    intro a b taken _ gap
    exact (fits a (List.mem_of_mem_take taken)).trans_lt gap
  · rw [alternatives] at inside
    obtain ⟨run, taken, rfl⟩ := List.mem_map.mp inside
    have roomy := List.mem_of_mem_take taken
    have free := (List.mem_filter.mp roomy).1
    obtain ⟨from', long, upTo⟩ := Offer.roomyRuns_within wf started windowed roomy
    refine ⟨add_sub_cancel_left _ _, ⟨long.trans upTo, fun t here before => ?_⟩, ?_⟩
    · exact ((means t).mp ⟨run, free, here, before.trans_le long⟩).2.2
    · by_cases first : run.start = span.start
      · exact .inl first
      · refine .inr fun earlier => separate.edge free ((means _).mpr ⟨by lia, ?_, earlier⟩)
        have proper := separate.proper run free
        lia
  · have proper := ranked.admitted.proper
    have length : 0 < span.durationMs := Int.sub_pos_of_lt proper
    have buffer := wf.buffer_bounds
    obtain ⟨fitsWindow, free⟩ := could
    -- The footprint lies in one run, which is then long enough to be offered.
    have stretch : ∀ t, x ≤ t → t < x + span.durationMs + guard.buffer → Covers _ t := fun t here before =>
      (means t).mpr ⟨after.trans here, before.trans_le fitsWindow, free t here before⟩
    obtain ⟨run, inside, begins, ends⟩ := separate.stretch (by lia) stretch
    have roomy : run ∈ Offer.roomyRuns guard span rules.nonBlocking rules.blocking e.clock (Offer.offerWindow span limit).end := by
      refine List.mem_filter.mpr ⟨inside, ?_⟩
      rw [decide_eq_true_eq, Span.durationMs]
      lia
    obtain ⟨j, inRange, rfl⟩ := List.mem_iff_getElem.mp roomy
    rcases Nat.lt_or_ge j limit with offered | late
    · refine .inl ⟨Offer.atStart span _, ?_, begins, fun t here before => ?_⟩
      · rw [alternatives]
        exact List.mem_map_of_mem (List.mem_take_iff_getElem.mpr ⟨j, by omega, rfl⟩)
      · exact ((means t).mp ⟨_, inside, here, by lia⟩).2.2
    · refine .inr ⟨?_, fun alternative before => ?_⟩
      · rw [alternatives, List.length_map, List.length_take]
        omega
      · rw [alternatives] at before
        obtain ⟨other, taken, rfl⟩ := List.mem_map.mp before
        obtain ⟨i, earlier, rfl⟩ := List.mem_take_iff_getElem.mp taken
        have gap := List.pairwise_iff_getElem.mp gaps i j (by omega) inRange (by omega)
        have fit := fits _ (List.getElem_mem (by omega : i < _))
        lia

omit h present in
/-- An offer that lists nothing for want of a schedule says so. -/
theorem offer_unscheduled (here : e.store.getResource r = some guard) :
    offer.unscheduled = true ↔ ∀ each ∈ guard :: line, each.hasNonBlockingRule = false := by
  obtain ⟨_, _, collected⟩ := bind_ok.mp ranked.context
  have shallow : line.length ≤ maxHierarchyDepth := by
    obtain ⟨other, lineage', shallow⟩ := tree.ancestors r guard here
    exact lineage.unique lineage' ▸ shallow
  rw [InMemoryStore.collectInheritedRules_ok lineage shallow] at collected
  have above : rules.ancestorHasSchedule = line.any ResourceState.hasNonBlockingRule := by
    cases collected
    simp only [InMemoryStore.inherited_hasSchedule, Bool.false_or]
  have nowhere : (∀ each ∈ guard :: line, each.hasNonBlockingRule = false) ↔
      (!guard.hasNonBlockingRule && !rules.ancestorHasSchedule) = true := by
    rw [above]
    simp
  rw [nowhere, ranked.offered]
  unfold Offer.rank
  simp only [if_neg positive.ne']
  split
  · next empty => simp [empty]
  · next some' =>
      split <;> simpa using some'

end Offered

/-- A request that is refused with an offer was ranked, and left the engine as it was. -/
theorem request_ranked (h : e.Healthy) (request : OfferRequest) {refused : Refused}
    (denied : (exec (request.run limit) e).1 = .error refused) (offered : refused.offer = some offer)
    (target : request.target e = some (r, span)) (present : e.store.getResource r = some guard) :
    (exec (request.run limit) e).2 = e ∧ ∃ rules, e.Ranked r guard span limit offer rules := by
  cases request with
  | hold id resourceId asked expiresAt =>
      cases target
      exact hold_ranked h present offered asked.2 denied
  | booking id resourceId asked label =>
      cases target
      exact booking_ranked h present offered asked.2 denied
  | commit holdId bookingId label =>
      obtain ⟨_, located, target⟩ := Option.bind_eq_some_iff.mp target
      obtain ⟨_, here, target⟩ := Option.bind_eq_some_iff.mp target
      obtain ⟨hold, found, same⟩ := Option.bind_eq_some_iff.mp target
      cases same
      obtain rfl := Option.some.inj (present.symm.trans here)
      exact commit_ranked h present offered located found denied

/-- Whatever is refused with an offer, the alternatives are the earliest that would do: each begins
    where its free time begins, and every other time that would do lies behind one of them in the
    same free time, or there are as many as were asked for and all of them are earlier. -/
theorem offers_earliest {allowed : Engine → Move → Prop} (reached : Reachable allowed e) (request : OfferRequest)
    (positive : 0 < limit) {refused : Refused} (denied : (exec (request.run limit) e).1 = .error refused)
    (offered : refused.offer = some offer) (target : request.target e = some (r, span))
    (present : e.store.getResource r = some guard) (lineage : e.store.Ancestors r line) :
    e.Complete guard line span limit offer (Offer.offerWindow span limit).end ∧
      (offer.unscheduled = true ↔ ∀ each ∈ guard :: line, each.hasNonBlockingRule = false) := by
  have h := reached.healthy
  obtain ⟨_, rules, ranked⟩ := request_ranked h request denied offered target present
  have tree := reached.wellFormedTree
  exact ⟨offer_complete h tree present lineage ranked positive, offer_unscheduled tree lineage ranked positive present⟩

/-- The two openings of a resource are what a request before them is offered, and all there is. -/
theorem openings_offered : ∃ guard refused offer, (twiceOpened 0).store.getResource 0 = some guard ∧
    (exec (OfferRequest.run 3 (.booking 200003 0 ⟨⟨0, 10⟩, valid_0_10⟩ none)) (twiceOpened 0)).1 = .error refused ∧
    refused.offer = some offer ∧ offer.alternatives = [⟨20, 30⟩, ⟨40, 50⟩] ∧
    (twiceOpened 0).Complete guard [] ⟨0, 10⟩ 3 offer (Offer.offerWindow ⟨0, 10⟩ 3).end ∧
    (offer.unscheduled = true ↔ ∀ each ∈ [guard], each.hasNonBlockingRule = false) := by
  obtain ⟨guard, refused, offer, present, _, denied, offered, alternatives, _⟩ := twiceOpened_offer 0 (by decide)
  obtain ⟨_, _, ruled, _⟩ := twiceOpened_ruled 0 (by decide)
  have top : (twiceOpened 0).store.getParent 0 = none := by
    rw [ruled.healthy.consistent.parents, ruled.present]
    exact ruled.root
  refine ⟨guard, refused, offer, present, denied, offered, alternatives, ?_⟩
  exact offers_earliest (twiceOpened_reachable 0) _ (by decide) denied offered rfl present (.root top)

end Engine

end Deltat
