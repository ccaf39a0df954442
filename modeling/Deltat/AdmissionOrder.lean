import Deltat.NeverDoubleBook

/-! # Admission does not depend on the order of requests

A booking leaves every rule as it is, and takes one unit of room at the instants it occupies.
So bookings of one resource are all admitted, in any order, exactly when the rules admit each
of them and all of them together fit beside what is live.
-/

namespace Deltat

open Lib Lib.Outcome Limits Conflict Availability

/-! ## What a booking leaves -/

namespace ResourceState

variable {rs rs' : ResourceState}

/-- Two states of a resource with the same rules. -/
structure SameRules (rs rs' : ResourceState) : Prop where
  schedule : rs'.hasNonBlockingRule = rs.hasNonBlockingRule
  meeting : ∀ query kind, kind = .nonBlocking ∨ kind = .blocking →
    (rs'.overlapping query).filter (·.kind = kind) = (rs.overlapping query).filter (·.kind = kind)

theorem SameRules.refl (rs : ResourceState) : rs.SameRules rs := ⟨rfl, fun _ _ _ => rfl⟩

/-- An allocation put between sorted intervals leaves the rules. -/
theorem insertInterval_sameRules (sorted : rs.intervals.Pairwise fun a b => a.span.start ≤ b.span.start) {i : Interval}
    (allocation : i.kind ≠ .nonBlocking ∧ i.kind ≠ .blocking) : rs.SameRules (rs.insertInterval i) := by
  have others : ∀ p : Interval → Bool, p i = false → (rs.insertInterval i).intervals.filter p = rs.intervals.filter p := by
    intro p skipped
    unfold insertInterval BinarySearch.insertAt
    simp only
    rw [List.filter_append, List.filter_cons_of_neg (by simpa using skipped), ← List.filter_append,
      List.take_append_drop]
  constructor
  · have perm : (rs.insertInterval i).intervals.Perm (i :: rs.intervals) := insertInterval_perm i
    unfold hasNonBlockingRule
    rw [perm.any_eq, List.any_cons]
    simp [allocation.1]
  · rintro query kind rule
    rw [overlapping_eq (insertInterval_sorted i sorted), overlapping_eq sorted, List.filter_filter, List.filter_filter]
    apply others
    rcases rule with rfl | rfl
    · simp [allocation.1]
    · simp [allocation.2]

theorem SameRules.ownRuleSpans (same : rs.SameRules rs') (query : Span) :
    Availability.ownRuleSpans rs' query = Availability.ownRuleSpans rs query := by
  simp only [Availability.ownRuleSpans, same.meeting query _ (.inl rfl), same.meeting query _ (.inr rfl)]

theorem SameRules.checkRulesAdmit (same : rs.SameRules rs') (span : Span) (nonBlocking blocking : List Span)
    (schedule : Bool) : Conflict.checkRulesAdmit rs' span nonBlocking blocking schedule =
      Conflict.checkRulesAdmit rs span nonBlocking blocking schedule := by
  simp only [Conflict.checkRulesAdmit, same.ownRuleSpans, same.schedule]

theorem SameRules.inheritFrom (same : rs.SameRules rs') (query : Span) (rules : InheritedRules) :
    InMemoryStore.inheritFrom query rules rs' = InMemoryStore.inheritFrom query rules rs := by
  simp only [InMemoryStore.inheritFrom, same.meeting query _ (.inl rfl), same.meeting query _ (.inr rfl), same.schedule]

end ResourceState

namespace InMemoryStore

variable {s s' : InMemoryStore}

/-- Two stores whose hierarchies and rules agree. -/
structure SameRules (s s' : InMemoryStore) : Prop where
  parents : ∀ c, s'.getParent c = s.getParent c
  resources : ∀ r, Option.Rel ResourceState.SameRules (s.getResource r) (s'.getResource r)

theorem SameRules.ancestorChain (same : s.SameRules s') (fuel : Nat) : ∀ (visited : List Ulid) (parentId : Option Ulid),
    s'.ancestorChain fuel visited parentId = s.ancestorChain fuel visited parentId := by
  induction fuel with
  | zero =>
      intro visited parentId
      cases parentId <;> rfl
  | succ fuel ih =>
      intro visited parentId
      cases parentId with
      | none => rw [ancestorChain_none, ancestorChain_none]
      | some pid => rw [ancestorChain_some, ancestorChain_some, same.parents, ih]

theorem SameRules.inheritAlong (same : s.SameRules s') (query : Span) (chain : List Ulid) : ∀ rules : InheritedRules,
    s'.inheritAlong query chain rules = s.inheritAlong query chain rules := by
  induction chain with
  | nil => exact fun _ => rfl
  | cons pid rest ih =>
      intro rules
      have related := same.resources pid
      unfold InMemoryStore.inheritAlong
      cases present : s.getResource pid with
      | none =>
          rw [present] at related
          cases after : s'.getResource pid with
          | none => rfl
          | some rs' =>
              rw [after] at related
              cases related
      | some rs =>
          rw [present] at related
          cases after : s'.getResource pid with
          | none =>
              rw [after] at related
              cases related
          | some rs' =>
              rw [after] at related
              cases related with
              | some rules' =>
                  simp only
                  rw [rules'.inheritFrom, ih]

theorem SameRules.collectInheritedRules (same : s.SameRules s') (r : Ulid) (query : Span) :
    s'.collectInheritedRules r (s'.getParent r) query = s.collectInheritedRules r (s.getParent r) query := by
  unfold InMemoryStore.collectInheritedRules
  rw [same.parents, same.ancestorChain]
  simp only [same.inheritAlong]

end InMemoryStore

namespace Engine

variable {e e' : Engine} {r : Ulid}

/-- A booking candidate: its id, span and label. -/
abbrev Candidate := Ulid × Span × Option String

/-- The bounds and the rules admit a candidate. -/
def Open (e : Engine) (r : Ulid) (c : Candidate) : Prop :=
  validateSpan c.2.1 = .ok () ∧ validateLabel c.2.2 = .ok () ∧ ∃ rules rs, e.ruleContext r c.2.1 0 = .ok rules ∧
    e.store.getResource r = some rs ∧
    checkRulesAdmit rs c.2.1 rules.nonBlocking rules.blocking rules.ancestorHasSchedule = .ok ()

theorem admitOne_ok_iff {id rid : Ulid} {span : Span} {rules : InheritedRules} {windowEnd : Ms} {limit : Nat} :
    e.admitOne id rid span rules windowEnd limit = .ok () ↔ e.store.getResourceForEntity id = none ∧
      ∃ guard, e.store.getResource rid = some guard ∧ guard.intervals.length < maxIntervalsPerResource ∧
        checkRulesAdmit guard span rules.nonBlocking rules.blocking rules.ancestorHasSchedule = .ok () ∧
        checkNoConflict guard span e.clock = .ok () := by
  unfold admitOne
  cases present : e.store.getResource rid with
  | none => simp
  | some guard =>
      have limit_ok : checkIntervalLimit guard = .ok () ↔ guard.intervals.length < maxIntervalsPerResource := by
        unfold checkIntervalLimit
        split
        · next full => simp [Nat.not_lt.mpr full]
        · next room => simp [Nat.lt_of_not_le room]
      have free : (do e.rejectReusedId id; checkIntervalLimit guard : Except EngineError Unit) = .ok () ↔
          e.store.getResourceForEntity id = none ∧ guard.intervals.length < maxIntervalsPerResource := by
        rw [bind_ok]
        constructor
        · rintro ⟨_, fresh, limit⟩
          exact ⟨rejectReusedId_ok.mp fresh, limit_ok.mp limit⟩
        · rintro ⟨fresh, limit⟩
          exact ⟨(), rejectReusedId_ok.mpr fresh, limit_ok.mpr limit⟩
      have admitted : (do
          checkRulesAdmit guard span rules.nonBlocking rules.blocking rules.ancestorHasSchedule
          checkNoConflict guard span e.clock : Except EngineError Unit) = .ok () ↔
          checkRulesAdmit guard span rules.nonBlocking rules.blocking rules.ancestorHasSchedule = .ok () ∧
            checkNoConflict guard span e.clock = .ok () := by
        rw [bind_ok]
        constructor
        · rintro ⟨_, rules, room⟩
          exact ⟨rules, room⟩
        · rintro ⟨rules, room⟩
          exact ⟨(), rules, room⟩
      simp only [Option.some.injEq, exists_eq_left']
      rw [← and_assoc, ← free, ← admitted]
      split
      · next failed => simp [failed]
      · next passed =>
          split
          · next failed => simp [passed, failed]
          · next through => simp [passed, through]

theorem checkBooking_ok_iff {c : Candidate} {rs : ResourceState} (present : e.store.getResource r = some rs) :
    e.checkBooking c.1 r c.2.1 c.2.2 0 = .ok () ↔ e.Open r c ∧ e.store.getResourceForEntity c.1 = none ∧
      rs.intervals.length < maxIntervalsPerResource ∧ checkNoConflict rs c.2.1 e.clock = .ok () := by
  unfold checkBooking
  rw [bind_ok]
  constructor
  · rintro ⟨rules, context, admitted⟩
    obtain ⟨_, valid, context⟩ := bind_ok.mp (refusing_ok.mp context)
    obtain ⟨_, label, context⟩ := bind_ok.mp context
    obtain ⟨fresh, guard, found, room, rulesOk, noConflict⟩ := admitOne_ok_iff.mp admitted
    obtain rfl : rs = guard := Option.some.inj (present.symm.trans found)
    exact ⟨⟨valid, label, rules, rs, context, present, rulesOk⟩, fresh, room, noConflict⟩
  · rintro ⟨⟨valid, label, rules, guard, context, found, rulesOk⟩, fresh, room, noConflict⟩
    obtain rfl : rs = guard := Option.some.inj (present.symm.trans found)
    refine ⟨rules, refusing_ok.mpr ?_, admitOne_ok_iff.mpr ⟨fresh, rs, present, room, rulesOk, noConflict⟩⟩
    exact bind_ok.mpr ⟨(), valid, bind_ok.mpr ⟨(), label, context⟩⟩

/-- A booking is its check and then one record. -/
theorem exec_confirmBooking (c : Candidate) :
    exec (confirmBooking c.1 r c.2.1 c.2.2) e =
      exec (ExceptT.adapt Refused.error
        (liftM (e.checkBooking c.1 r c.2.1 c.2.2 0) >>= fun _ =>
          ExceptT.adapt Refused.ofError
            (persistEarly [r] [.bookingConfirmed c.1 r c.2.1 c.2.2]) : ExceptT Refused (StateM Engine) Unit)) e := rfl

theorem confirmBooking_refused {c : Candidate} {refused : Refused}
    (failed : e.checkBooking c.1 r c.2.1 c.2.2 0 = .error refused) :
    exec (confirmBooking c.1 r c.2.1 c.2.2) e = (.error refused.error, e) := by
  rw [exec_confirmBooking, exec_adapt, failed, exec_bind_error (exec_check _ _)]
  rfl

theorem confirmBooking_wrote (h : e.Healthy) {c : Candidate} (proper : c.2.1.Valid)
    (passed : e.checkBooking c.1 r c.2.1 c.2.2 0 = .ok ()) :
    ∃ e', exec (confirmBooking c.1 r c.2.1 c.2.2) e = (.ok (), e') ∧
      e.Wrote e' [.bookingConfirmed c.1 r c.2.1 c.2.2] := by
  have admits : e.Admits [.bookingConfirmed c.1 r c.2.1 c.2.2] := .confirmBooking proper passed
  have changes : ∀ ev ∈ [Event.bookingConfirmed c.1 r c.2.1 c.2.2], ev.isChange := by simp [Event.isChange]
  rw [exec_confirmBooking, exec_adapt, passed, exec_bind_ok (exec_check _ _), exec_adapt, exec_persistEarly h.running h.noFault]
  exact ⟨_, rfl, wrote_early h (List.nodup_singleton r) changes (by simp [Event.perResource, Event.resourceId?])
    (admits.allApply h changes) rfl rfl rfl rfl rfl⟩

/-- The interval of a candidate. -/
def Candidate.booking (c : Candidate) : Interval := ⟨c.1, c.2.1, .booking c.2.2⟩

/-- What the booking of a candidate leaves and changes. -/
structure Booked (e e' : Engine) (r : Ulid) (rs : ResourceState) (c : Candidate) : Prop where
  healthy : e'.Healthy
  clock : e'.clock = e.clock
  present : e'.store.getResource r = some (rs.insertInterval c.booking)
  others : ∀ q, q ≠ r → e'.store.getResource q = e.store.getResource q
  rules : e.store.SameRules e'.store
  unused : ∀ id, id ≠ c.1 → e.store.getResourceForEntity id = none → e'.store.getResourceForEntity id = none

theorem booked_of_wrote (h : e.Healthy) {c : Candidate} {rs : ResourceState} (present : e.store.getResource r = some rs)
    (wrote : e.Wrote e' [.bookingConfirmed c.1 r c.2.1 c.2.2]) : e.Booked e' r rs c := by
  have table : ∀ q, e'.store.getResource q =
      if q = r then some (rs.insertInterval c.booking) else e.store.getResource q := by
    intro q
    rw [wrote.table, List.foldl_cons, List.foldl_nil, Event.stepOn_change rfl]
    by_cases same : q = r
    · subst same
      rw [present, if_pos rfl]
      simp [Event.changesOn, Event.perResource, Event.resourceId?, Candidate.booking, ResourceState.applySingle]
    · have other : (Event.bookingConfirmed c.1 r c.2.1 c.2.2).changesOn q = [] := by
        simp [Event.changesOn, Event.perResource, Event.resourceId?, Ne.symm same]
      rw [other, if_neg same]
      simp
  have now : e'.store.getResource r = some (rs.insertInterval c.booking) := by rw [table, if_pos rfl]
  have sorted := (h.consistent.wellFormed r rs present).sorted
  refine ⟨wrote.healthy, wrote.clock, now, fun q apart => by rw [table, if_neg apart], ⟨?_, ?_⟩, ?_⟩
  · intro q
    rw [wrote.healthy.consistent.parents, h.consistent.parents, table]
    split
    · next same =>
        rw [same, present]
        rfl
    · rfl
  · intro q
    rw [table]
    split
    · next same =>
        rw [same, present]
        exact .some (ResourceState.insertInterval_sameRules sorted (by simp [Candidate.booking]))
    · cases e.store.getResource q with
      | none => exact .none
      | some rs => exact .some (.refl rs)
  · intro id apart fresh
    cases located : e'.store.getResourceForEntity id with
    | none => rfl
    | some q =>
        obtain ⟨rs', found, inside⟩ := (wrote.healthy.consistent.entities id q).mp located
        rw [table] at found
        have before : ∃ rs, e.store.getResource q = some rs ∧ id ∈ rs.intervals.map (·.id) := by
          split at found
          · next same =>
              cases found
              refine ⟨rs, by rw [same, present], ?_⟩
              have ids := ((ResourceState.insertInterval_perm c.booking).map (·.id)).mem_iff.mp inside
              exact (List.mem_cons.mp ids).resolve_left apart
          · exact ⟨rs', found, inside⟩
        rw [(h.consistent.entities id q).mpr before] at fresh
        cases fresh

section Booked

variable {rs : ResourceState} {c : Candidate}

theorem Booked.open_iff (booked : e.Booked e' r rs c) (present : e.store.getResource r = some rs) (d : Candidate) :
    e'.Open r d ↔ e.Open r d := by
  have same := booked.rules.resources r
  rw [present, booked.present] at same
  cases same with
  | some rules =>
      have context : e'.ruleContext r d.2.1 0 = e.ruleContext r d.2.1 0 := by
        unfold ruleContext
        rw [booked.rules.collectInheritedRules]
        simp only [resource, present, booked.present]
        rfl
      unfold Open
      simp only [context, present, booked.present, Option.some.injEq, exists_and_left, exists_eq_left',
        rules.checkRulesAdmit]

/-- A booking takes one unit of room at the instants it occupies. -/
theorem Booked.liveAt (t : Ms) : (rs.insertInterval c.booking).liveAt e.clock t =
    rs.liveAt e.clock t + if rs.occupies c.2.1 t then 1 else 0 := by
  unfold ResourceState.liveAt
  have perm : (rs.insertInterval c.booking).intervals.Perm (c.booking :: rs.intervals) :=
    ResourceState.insertInterval_perm c.booking
  rw [perm.countP_eq, List.countP_cons]
  have same : (rs.insertInterval c.booking).occupies = rs.occupies := rfl
  rw [same]
  simp [Candidate.booking, IntervalKind.live]

end Booked

/-- Confirm candidates on one resource in the order of a list. -/
def confirmAll (r : Ulid) (candidates : List Candidate) : EngineM Unit :=
  candidates.forM fun c => confirmBooking c.1 r c.2.1 c.2.2

/-- Candidates that only the rules and the load of their resource can refuse. -/
structure Candidates (e : Engine) (rs : ResourceState) (candidates : List Candidate) : Prop where
  proper : ∀ c ∈ candidates, c.2.1.Valid
  idsNodup : (candidates.map (·.1)).Nodup
  unused : ∀ c ∈ candidates, e.store.getResourceForEntity c.1 = none
  room : rs.intervals.length + candidates.length ≤ maxIntervalsPerResource

/-- All candidates together fit beside what is live, wherever one of them is. -/
def FitTogether (rs : ResourceState) (now : Ms) (candidates : List Candidate) : Prop :=
  ∀ c ∈ candidates, ∀ t, rs.occupies c.2.1 t = true →
    rs.liveAt now t + batchAt rs (candidates.map (·.2.1)) t ≤ rs.capacity.toNat

theorem batchAt_cons (rs : ResourceState) (s : Span) (spans : List Span) (t : Ms) :
    batchAt rs (s :: spans) t = batchAt rs spans t + if rs.occupies s t then 1 else 0 :=
  List.countP_cons

/-- The first candidate finds room, and the others fit once it is booked. -/
theorem fitTogether_cons {rs : ResourceState} {c : Candidate} {rest : List Candidate} :
    FitTogether rs e.clock (c :: rest) ↔ (∀ t, rs.occupies c.2.1 t = true → rs.liveAt e.clock t < rs.capacity.toNat) ∧
      FitTogether (rs.insertInterval c.booking) e.clock rest := by
  have same : (rs.insertInterval c.booking).occupies = rs.occupies := rfl
  have batch : ∀ spans t, batchAt (rs.insertInterval c.booking) spans t = batchAt rs spans t := fun _ _ => rfl
  have capacity : (rs.insertInterval c.booking).capacity = rs.capacity := rfl
  unfold FitTogether
  simp only [same, batch, capacity, Booked.liveAt, List.map_cons, batchAt_cons]
  constructor
  · intro fit
    refine ⟨fun t covers => ?_, fun d inRest t covers => ?_⟩
    · have fits := fit c List.mem_cons_self t covers
      rw [if_pos covers] at fits
      omega
    · have fits := fit d (List.mem_cons_of_mem _ inRest) t covers
      omega
  · rintro ⟨first, others⟩ d inside t covers
    by_cases shared : ∃ d ∈ rest, rs.occupies d.2.1 t = true
    · obtain ⟨d', inRest, covers'⟩ := shared
      have fits := others d' inRest t covers'
      omega
    · have alone : batchAt rs (rest.map (·.2.1)) t = 0 := by
        rw [batchAt, List.countP_eq_zero]
        intro s inside covers
        obtain ⟨d', inRest, rfl⟩ := List.mem_map.mp inside
        exact shared ⟨d', inRest, covers⟩
      have onC : rs.occupies c.2.1 t = true := by
        rcases List.mem_cons.mp inside with rfl | inRest
        · exact covers
        · exact absurd ⟨d, inRest, covers⟩ shared
      have fits := first t onC
      rw [if_pos onC]
      omega

/-- All candidates are admitted in the order of the list exactly when the rules admit each of
    them and together they fit; then the resource has all their bookings. -/
theorem confirmAll_ok {candidates : List Candidate} : ∀ {e : Engine} {rs : ResourceState}, e.Healthy →
    e.store.getResource r = some rs → e.Candidates rs candidates →
    ((exec (confirmAll r candidates) e).1 = .ok () ↔
      (∀ c ∈ candidates, e.Open r c) ∧ FitTogether rs e.clock candidates) ∧
    ((exec (confirmAll r candidates) e).1 = .ok () →
      (∃ rs', (exec (confirmAll r candidates) e).2.store.getResource r = some rs' ∧
        rs'.intervals.Perm (candidates.map Candidate.booking ++ rs.intervals)) ∧
      ∀ q, q ≠ r → (exec (confirmAll r candidates) e).2.store.getResource q = e.store.getResource q) := by
  induction candidates with
  | nil =>
      intro e rs h present _
      refine ⟨⟨fun _ => ⟨fun c inside => (List.not_mem_nil inside).elim, fun c inside => (List.not_mem_nil inside).elim⟩,
        fun _ => rfl⟩, fun _ => ⟨⟨rs, present, .refl _⟩, fun _ _ => rfl⟩⟩
  | cons c rest ih =>
      intro e rs h present valid
      have run : exec (confirmAll r (c :: rest)) e =
          exec (confirmBooking c.1 r c.2.1 c.2.2 >>= fun _ => confirmAll r rest) e := rfl
      have wf := h.consistent.wellFormed r rs present
      have length : rs.intervals.length < maxIntervalsPerResource := by
        have room := valid.room
        rw [List.length_cons] at room
        omega
      have check := checkBooking_ok_iff (c := c) present
      have noConflict : validateSpan c.2.1 = .ok () → (checkNoConflict rs c.2.1 e.clock = .ok () ↔
          ∀ t, rs.occupies c.2.1 t = true → rs.liveAt e.clock t < rs.capacity.toNat) := by
        intro inBounds
        unfold checkNoConflict
        rw [checkNoConflictExcluding_ok wf (validateSpan_admits (valid.proper c List.mem_cons_self) inBounds)]
        simp only [ResourceState.othersAt_none]
      rw [run, fitTogether_cons]
      cases passed : e.checkBooking c.1 r c.2.1 c.2.2 0 with
      | error refused =>
          have notFree : ¬ (e.Open r c ∧ ∀ t, rs.occupies c.2.1 t = true → rs.liveAt e.clock t < rs.capacity.toNat) := by
            rintro ⟨admits, free⟩
            have ok := check.mpr ⟨admits, valid.unused c List.mem_cons_self, length, (noConflict admits.1).mpr free⟩
            rw [passed] at ok
            cases ok
          rw [exec_bind_error (confirmBooking_refused passed)]
          refine ⟨iff_of_false (by simp) ?_, fun ok => by cases ok⟩
          rintro ⟨admits, free, _⟩
          exact notFree ⟨admits c List.mem_cons_self, free⟩
      | ok u =>
          obtain ⟨admits, _, _, free⟩ := check.mp passed
          obtain ⟨e₁, ran, wrote⟩ := confirmBooking_wrote h (valid.proper c List.mem_cons_self) passed
          have booked := booked_of_wrote h present wrote
          have ids := List.nodup_cons.mp valid.idsNodup
          have later : e₁.Candidates (rs.insertInterval c.booking) rest := by
            refine ⟨fun d inRest => valid.proper d (List.mem_cons_of_mem _ inRest), ids.2, fun d inRest => ?_, ?_⟩
            · refine booked.unused d.1 (fun same => ids.1 ?_) (valid.unused d (List.mem_cons_of_mem _ inRest))
              exact List.mem_map.mpr ⟨d, inRest, same⟩
            · have room := valid.room
              rw [(ResourceState.insertInterval_perm c.booking).length_eq, List.length_cons]
              rw [List.length_cons] at room
              omega
          obtain ⟨admitted, leaves⟩ := ih booked.healthy booked.present later
          rw [exec_bind_ok ran]
          refine ⟨?_, fun ok => ?_⟩
          · rw [admitted, booked.clock]
            simp only [List.forall_mem_cons, booked.open_iff present, admits, true_and]
            exact and_congr_right fun _ => (and_iff_right ((noConflict admits.1).mp free)).symm
          · obtain ⟨⟨rs', after, perm⟩, others⟩ := leaves ok
            refine ⟨⟨rs', after, perm.trans ?_⟩, fun q apart => (others q apart).trans (booked.others q apart)⟩
            exact ((ResourceState.insertInterval_perm c.booking).append_left _).trans List.perm_middle

/-- Admission does not depend on the order of the requests: in every state, all candidates are
    admitted in the order of one list exactly when they are in the order of any other, and
    every resource then has the same intervals. -/
theorem confirmAll_perm (h : e.Healthy) {rs : ResourceState} (present : e.store.getResource r = some rs)
    {candidates other : List Candidate} (valid : e.Candidates rs candidates) (same : candidates.Perm other) :
    ((exec (confirmAll r candidates) e).1 = .ok () ↔ (exec (confirmAll r other) e).1 = .ok ()) ∧
    ((exec (confirmAll r candidates) e).1 = .ok () → ∀ q, Option.Rel (fun a b => a.intervals.Perm b.intervals)
      ((exec (confirmAll r candidates) e).2.store.getResource q)
      ((exec (confirmAll r other) e).2.store.getResource q)) := by
  have validOther : e.Candidates rs other := by
    refine ⟨fun c inside => valid.proper c (same.mem_iff.mpr inside), ?_, fun c inside =>
      valid.unused c (same.mem_iff.mpr inside), ?_⟩
    · exact (same.map _).nodup_iff.mp valid.idsNodup
    · rw [← same.length_eq]
      exact valid.room
  obtain ⟨admitted, leaves⟩ := confirmAll_ok h present valid
  obtain ⟨admittedOther, leavesOther⟩ := confirmAll_ok h present validOther
  have agree : (exec (confirmAll r candidates) e).1 = .ok () ↔ (exec (confirmAll r other) e).1 = .ok () := by
    rw [admitted, admittedOther]
    unfold FitTogether batchAt
    simp only [same.mem_iff, (same.map (·.2.1)).countP_eq]
  refine ⟨agree, fun ok q => ?_⟩
  obtain ⟨⟨rs₁, after₁, perm₁⟩, others₁⟩ := leaves ok
  obtain ⟨⟨rs₂, after₂, perm₂⟩, others₂⟩ := leavesOther (agree.mp ok)
  by_cases here : q = r
  · subst here
    rw [after₁, after₂]
    exact .some (perm₁.trans (((same.map _).append_right _).trans perm₂.symm))
  · rw [others₁ q here, others₂ q here]
    cases e.store.getResource q with
    | none => exact .none
    | some _ => exact .some (.refl _)

/-- Two candidates behind a booking. -/
def twoCandidates : List Candidate := [(3, ⟨30, 40⟩, none), (4, ⟨38, 50⟩, none)]

theorem twoCandidates_valid :
    bookedOnce.Candidates ⟨1, none, none, 1, some 5, [⟨2, ⟨10, 20⟩, .booking none⟩]⟩ twoCandidates where
  proper := by decide
  idsNodup := by decide
  unused := by
    rintro c (_ | ⟨_, _ | ⟨_, ⟨⟩⟩⟩) <;> rfl
  room := by decide

theorem twoCandidates_perm :
    ((exec (confirmAll 1 twoCandidates) bookedOnce).1 = .ok () ↔
      (exec (confirmAll 1 twoCandidates.reverse) bookedOnce).1 = .ok ()) ∧
    ((exec (confirmAll 1 twoCandidates) bookedOnce).1 = .ok () →
      ∀ q, Option.Rel (fun a b => a.intervals.Perm b.intervals)
        ((exec (confirmAll 1 twoCandidates) bookedOnce).2.store.getResource q)
        ((exec (confirmAll 1 twoCandidates.reverse) bookedOnce).2.store.getResource q)) :=
  confirmAll_perm (Reachable.healthy (.step _ (.step _ (.start 0 1000) trivial trivial) trivial trivial :
    Reachable (fun _ _ => True) bookedOnce)) rfl twoCandidates_valid (List.reverse_perm _).symm

end Engine

end Deltat
