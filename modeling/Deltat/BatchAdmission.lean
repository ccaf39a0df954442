import Deltat.AdmissionOrder
import Deltat.CommitHolds
import Deltat.Hierarchy
import Deltat.ReadsAndAdmission

/-! # A batch and its members one by one

A batch weighs its members against the live allocations and against each other. Above
capacity one it does so with one sweep over everything around the batch, the time that no
member touches included: load over a lowered capacity there refuses the batch, although
every member would be admitted by itself.
-/

namespace Deltat

open Lib Lib.Outcome Limits Conflict Availability

/-! ## The members of one resource -/

namespace Conflict

variable {rs : ResourceState} {now : Ms}

/-- The live allocations around a batch that occupy the instant: those whose footprint begins
    before the last footprint of the batch ends, and ends after the first one begins. -/
def aroundAt (rs : ResourceState) (now : Ms) (spans : List Span) (t : Ms) : Nat :=
  rs.intervals.countP fun i => i.kind.live now && rs.occupies i.span t &&
    (spans.any (fun s => decide (i.span.start < s.end + rs.buffer)) &&
      spans.any fun s => decide (s.start < i.span.end + rs.buffer))

theorem aroundAt_le (spans : List Span) (t : Ms) : aroundAt rs now spans t ≤ rs.liveAt now t := by
  apply List.countP_mono_left
  intro i _ counted
  rw [Bool.and_eq_true] at counted
  exact counted.1

/-- Nothing is saturated exactly when the spans reach the capacity at no instant. -/
theorem saturated_isEmpty_iff {allocs : List Span} {capacity : Nat} (several : 2 ≤ capacity)
    (proper : ∀ a ∈ allocs, a.start < a.end) :
    (computeSaturatedSpans allocs capacity).isEmpty = true ↔ ∀ t, occupancy allocs t < capacity := by
  rw [List.isEmpty_iff]
  constructor
  · intro nothing t
    by_contra reached
    obtain ⟨s, inside, _⟩ := (covers_saturated several proper t).mpr (Nat.le_of_not_lt reached)
    rw [nothing] at inside
    cases inside
  · intro below
    by_contra something
    obtain ⟨s, inside⟩ := List.exists_mem_of_ne_nil _ something
    have whole := saturated_proper several s inside
    have reached := (covers_saturated several proper s.start).mp ⟨s, inside, le_refl _, whole⟩
    exact absurd (below s.start) (Nat.not_lt.mpr reached)

section

variable (wf : rs.WellFormed)
include wf

/-- The sweep of a batch counts the live allocations around it. -/
theorem occupancy_around {spans : List Span} (admitted : ∀ s ∈ spans, s.Admitted) {lo hi : Ms}
    (least : (spans.map (·.start)).min? = some lo) (most : (spans.map fun s => satAdd s.end rs.buffer).max? = some hi)
    (t : Ms) : occupancy (collectActiveAllocsWithBuffer rs ⟨max (satSub lo rs.buffer) 0, hi⟩ now rs.buffer none) t =
      aroundAt rs now spans t := by
  obtain ⟨lowest, first⟩ := List.min?_eq_some_iff.mp least
  obtain ⟨highest, last⟩ := List.max?_eq_some_iff.mp most
  obtain ⟨low, lowIn, rfl⟩ := List.mem_map.mp lowest
  obtain ⟨high, highIn, rfl⟩ := List.mem_map.mp highest
  have begins : ∀ i : Interval, spans.any (fun s => decide (i.span.start < s.end + rs.buffer)) = true ↔
      i.span.start < satAdd high.end rs.buffer := by
    intro i
    simp only [List.any_eq_true, decide_eq_true_eq]
    constructor
    · rintro ⟨s, inside, before⟩
      have bound := last _ (List.mem_map_of_mem inside)
      rw [rs.satAdd_buffer wf (admitted s inside)] at bound
      lia
    · intro before
      rw [rs.satAdd_buffer wf (admitted high highIn)] at before
      exact ⟨high, highIn, before⟩
  have ends : ∀ i ∈ rs.intervals, (spans.any (fun s => decide (s.start < i.span.end + rs.buffer)) = true ↔
      i.span.end > max (satSub low.start rs.buffer) 0) := by
    intro i held
    have bounds := (wf.admitted i held).span
    have proper := bounds.proper
    have lower := bounds.lower
    have range := (admitted low lowIn).lower
    have upper := (admitted low lowIn).upper
    have shorter := (admitted low lowIn).proper
    obtain ⟨bufferLow, bufferHigh⟩ := wf.buffer_bounds
    simp only [minValidTimestampMs, maxValidTimestampMs, maxSpanDurationMs] at lower range upper bufferHigh
    have exact : satSub low.start rs.buffer = low.start - rs.buffer := by
      simp only [satSub, i64Min, i64Max]
      lia
    rw [exact]
    simp only [List.any_eq_true, decide_eq_true_eq]
    constructor
    · rintro ⟨s, inside, after⟩
      have bound := first _ (List.mem_map_of_mem inside)
      lia
    · intro after
      exact ⟨low, lowIn, by lia⟩
  unfold collectActiveAllocsWithBuffer aroundAt
  rw [occupancy_perm (sortByStart_perm _), occupancy, List.countP_map, List.countP_filter,
    ResourceState.overlapping_eq wf.timeline.sorted, List.countP_filter]
  apply List.countP_congr
  intro i held
  have behind := ends i held
  have before := begins i
  have whole := rs.satAdd_buffer wf (wf.admitted i held).span
  simp only [Function.comp_apply, Bool.and_eq_true, decide_eq_true_eq, Span.buffered, whole,
    ResourceState.occupies_iff] at before behind ⊢
  rw [before, behind]
  simp only [reduceCtorEq, ne_eq, not_false_eq_true, true_and]
  tauto

/-- The sweep of a batch passes exactly when the members and the live allocations around them
    stay within the capacity at every instant. -/
theorem checkBatchCapacity_iff {spans : List Span} (admitted : ∀ s ∈ spans, s.Admitted) (some : spans ≠ [])
    (several : 2 ≤ rs.capacity.toNat) (few : rs.intervals.length + spans.length < u32Max) :
    checkBatchCapacity rs spans now = .ok () ↔
      ∀ t, aroundAt rs now spans t + batchAt rs spans t ≤ rs.capacity.toNat := by
  obtain ⟨lo, least⟩ : ∃ lo, (spans.map (·.start)).min? = Option.some lo :=
    Option.ne_none_iff_exists'.mp fun none => some (by simpa using none)
  obtain ⟨hi, most⟩ : ∃ hi, (spans.map fun s => satAdd s.end rs.buffer).max? = Option.some hi :=
    Option.ne_none_iff_exists'.mp fun none => some (by simpa using none)
  have threshold : 2 ≤ min (rs.capacity.toNat + 1) u32Max := by
    simp only [u32Max]
    omega
  have proper : ∀ a ∈ sortByStart (collectActiveAllocsWithBuffer rs ⟨max (satSub lo rs.buffer) 0, hi⟩
      now rs.buffer none ++ spans.map (·.buffered rs.buffer)), a.start < a.end := by
    intro a found
    rcases List.mem_append.mp ((sortByStart_perm _).mem_iff.mp found) with held | new
    · exact collect_proper wf.timeline a held
    · obtain ⟨s, given, rfl⟩ := List.mem_map.mp new
      exact ResourceState.buffered_proper wf.timeline (admitted s given).representable
  simp only [checkBatchCapacity, least, most]
  rw [ite_eq_left_iff, Bool.not_eq_true, imp_iff_not (by simp), Bool.not_eq_false,
    saturated_isEmpty_iff threshold proper]
  apply forall_congr'
  intro t
  have around := @occupancy_around rs now wf spans admitted lo hi least most t
  have members := occupancy_members wf admitted t
  have fewLive : aroundAt rs now spans t ≤ rs.intervals.length := List.countP_le_length
  have fewMembers : batchAt rs spans t ≤ spans.length := List.countP_le_length
  rw [occupancy_perm (sortByStart_perm _), occupancy, List.countP_append]
  unfold occupancy at around members
  rw [around, members]
  omega

/-- Members of which no two share an instant pass the pairwise check. -/
theorem checkPairwise_of_atMostOne {batch : List (Ulid × Span)} (admitted : ∀ m ∈ batch, m.2.Admitted)
    (one : ∀ t, batchAt rs (batch.map (·.2)) t ≤ 1) : Engine.checkPairwise rs.buffer batch = .ok () := by
  induction batch with
  | nil => rfl
  | cons m rest ih =>
      have fewer : ∀ t, batchAt rs (rest.map (·.2)) t ≤ 1 := by
        intro t
        have bound := one t
        rw [List.map_cons, Engine.batchAt_cons] at bound
        omega
      have here := admitted m List.mem_cons_self
      have later := ih (fun m' inside => admitted m' (List.mem_cons_of_mem _ inside)) fewer
      refine bind_ok.mpr ⟨(), forM_ok.mpr fun other inRest => ?_, later⟩
      have there := admitted other (List.mem_cons_of_mem _ inRest)
      have apart : ∀ t, ¬ (rs.occupies m.2 t = true ∧ rs.occupies other.2 t = true) := by
        rintro t ⟨first, second⟩
        have bound := one t
        have counted : 0 < batchAt rs (rest.map (·.2)) t :=
          List.countP_pos_iff.mpr ⟨other.2, List.mem_map_of_mem inRest, second⟩
        rw [List.map_cons, Engine.batchAt_cons, if_pos first] at bound
        omega
      have shared := apart (max m.2.start other.2.start)
      have properHere := here.proper
      have properThere := there.proper
      have buffer := wf.buffer_bounds.1
      rw [ResourceState.occupies_iff, ResourceState.occupies_iff] at shared
      refine bind_ok.mpr ⟨(), rejectIf_ok.mpr ?_, rejectIf_ok.mpr ?_⟩
      · simp only [Span.overlaps, Span.buffered, rs.satAdd_buffer wf here, Bool.and_eq_true, decide_eq_true_eq]
        lia
      · simp only [Span.overlaps, Span.buffered, rs.satAdd_buffer wf there, Bool.and_eq_true, decide_eq_true_eq]
        lia

end

/-- What the sweep of several members asks beyond room for the members: the load around them is
    nowhere above the capacity. -/
def CalmAround (rs : ResourceState) (now : Ms) (spans : List Span) : Prop :=
  1 < spans.length → 1 < rs.capacity.toNat → ∀ t, aroundAt rs now spans t ≤ rs.capacity.toNat

end Conflict

/-! ## Members in turn -/

namespace Engine

variable {e e' : Engine} {r : Ulid} {members : List (Ulid × Ulid × Span)}

/-- The members on one resource as booking candidates. -/
def candidatesOn (members : List (Ulid × Ulid × Span)) (r : Ulid) : List Candidate :=
  (membersOn members r).map fun m => (m.1, m.2, none)

/-- Confirm the members one after another, in the order of the list. -/
def confirmInTurn (members : List (Ulid × Ulid × Span)) : EngineM Unit :=
  members.forM fun m => confirmBooking m.1 m.2.1 m.2.2 none

/-- Members that only the bounds, the rules and the load of their resources can refuse. -/
structure Members (e : Engine) (members : List (Ulid × Ulid × Span)) : Prop where
  size : members.length ≤ maxBatchSize
  proper : ∀ m ∈ members, m.2.2.Valid
  idsNodup : (members.map (·.1)).Nodup
  unused : ∀ m ∈ members, e.store.getResourceForEntity m.1 = none
  room : ∀ r rs, e.store.getResource r = some rs →
    rs.intervals.length + (membersOn members r).length ≤ maxIntervalsPerResource

/-- The bounds and the rules admit every member, and on each resource its members fit together. -/
structure FitInTurn (e : Engine) (members : List (Ulid × Ulid × Span)) : Prop where
  opened : ∀ m ∈ members, e.Open m.2.1 (m.1, m.2.2, none)
  together : ∀ r rs, e.store.getResource r = some rs → FitTogether rs e.clock (candidatesOn members r)

theorem membersOn_cons (m : Ulid × Ulid × Span) (rest : List (Ulid × Ulid × Span)) (r : Ulid) :
    membersOn (m :: rest) r = if m.2.1 = r then (m.1, m.2.2) :: membersOn rest r else membersOn rest r := by
  unfold membersOn
  by_cases same : m.2.1 = r
  · rw [List.filter_cons_of_pos (by simpa using same), if_pos same, List.map_cons]
  · rw [List.filter_cons_of_neg (by simpa using same), if_neg same]

theorem candidatesOn_cons (m : Ulid × Ulid × Span) (rest : List (Ulid × Ulid × Span)) (r : Ulid) :
    candidatesOn (m :: rest) r =
      if m.2.1 = r then (m.1, m.2.2, none) :: candidatesOn rest r else candidatesOn rest r := by
  unfold candidatesOn
  rw [membersOn_cons]
  split <;> rfl

/-- A booking leaves the rules of every other resource as they are. -/
theorem Booked.open_elsewhere {rs : ResourceState} {c : Candidate} (booked : e.Booked e' r rs c) {q : Ulid}
    (apart : q ≠ r) (d : Candidate) : e'.Open q d ↔ e.Open q d := by
  have context : e'.ruleContext q d.2.1 0 = e.ruleContext q d.2.1 0 := by
    unfold ruleContext
    rw [booked.rules.collectInheritedRules]
    simp only [resource, booked.others q apart]
  unfold Open
  simp only [context, booked.others q apart]

/-- Once an open member that finds room is booked, the others fit as before. -/
theorem Booked.fitInTurn_iff {rs : ResourceState} {m : Ulid × Ulid × Span} {rest : List (Ulid × Ulid × Span)}
    (booked : e.Booked e' m.2.1 rs (m.1, m.2.2, none)) (present : e.store.getResource m.2.1 = some rs)
    (admits : e.Open m.2.1 (m.1, m.2.2, none))
    (free : ∀ t, rs.occupies m.2.2 t = true → rs.liveAt e.clock t < rs.capacity.toNat) :
    e.FitInTurn (m :: rest) ↔ e'.FitInTurn rest := by
  have opens : ∀ (q : Ulid) (d : Candidate), e'.Open q d ↔ e.Open q d := by
    intro q d
    by_cases same : q = m.2.1
    · rw [same]
      exact booked.open_iff present d
    · exact booked.open_elsewhere same d
  have here := @fitTogether_cons e rs (m.1, m.2.2, none) (candidatesOn rest m.2.1)
  constructor
  · rintro ⟨opened, together⟩
    refine ⟨fun m' inRest => (opens _ _).mpr (opened m' (List.mem_cons_of_mem _ inRest)), fun q rs' found => ?_⟩
    by_cases same : q = m.2.1
    · subst same
      have fits := together m.2.1 rs present
      obtain rfl := Option.some.inj (booked.present.symm.trans found)
      rw [candidatesOn_cons, if_pos rfl, here] at fits
      rw [booked.clock]
      exact fits.2
    · rw [booked.others q same] at found
      have fits := together q rs' found
      rw [candidatesOn_cons, if_neg (Ne.symm same)] at fits
      rw [booked.clock]
      exact fits
  · rintro ⟨opened, together⟩
    refine ⟨List.forall_mem_cons.mpr ⟨admits, fun m' inRest => (opens _ _).mp (opened m' inRest)⟩, fun q rs' found => ?_⟩
    rw [candidatesOn_cons]
    by_cases same : q = m.2.1
    · subst same
      obtain rfl := Option.some.inj (present.symm.trans found)
      have fits := together m.2.1 _ booked.present
      rw [booked.clock] at fits
      rw [if_pos rfl, here]
      exact ⟨free, fits⟩
    · rw [if_neg (Ne.symm same)]
      have fits := together q rs' ((booked.others q same).trans found)
      rw [booked.clock] at fits
      exact fits

theorem Booked.membersLeft {rs : ResourceState} {m : Ulid × Ulid × Span} {rest : List (Ulid × Ulid × Span)}
    (booked : e.Booked e' m.2.1 rs (m.1, m.2.2, none)) (present : e.store.getResource m.2.1 = some rs)
    (valid : e.Members (m :: rest)) : e'.Members rest := by
  obtain ⟨apart, nodup⟩ := List.nodup_cons.mp valid.idsNodup
  refine ⟨(Nat.le_succ _).trans valid.size, fun m' inRest => valid.proper m' (List.mem_cons_of_mem _ inRest), nodup,
    fun m' inRest => ?_, fun q rs' found => ?_⟩
  · apply booked.unused m'.1 _ (valid.unused m' (List.mem_cons_of_mem _ inRest))
    intro same
    exact apart (List.mem_map.mpr ⟨m', inRest, same⟩)
  · by_cases same : q = m.2.1
    · subst same
      obtain rfl := Option.some.inj (booked.present.symm.trans found)
      have room := valid.room m.2.1 rs present
      rw [membersOn_cons, if_pos rfl, List.length_cons] at room
      rw [(ResourceState.insertInterval_perm _).length_eq, List.length_cons]
      omega
    · have room := valid.room q rs' ((booked.others q same).symm.trans found)
      rw [membersOn_cons, if_neg (Ne.symm same)] at room
      exact room

/-- The members are all confirmed in the order of the list exactly when the bounds and the rules
    admit each and those of one resource fit together. -/
theorem confirmInTurn_ok : ∀ {members : List (Ulid × Ulid × Span)} {e : Engine}, e.Healthy → e.Members members →
    ((exec (confirmInTurn members) e).1 = .ok () ↔ e.FitInTurn members) := by
  intro members
  induction members with
  | nil =>
      intro e _ _
      apply iff_of_true rfl
      refine ⟨fun m inside => (List.not_mem_nil inside).elim, fun r rs _ c inside => (List.not_mem_nil inside).elim⟩
  | cons m rest ih =>
      intro e h valid
      have run : exec (confirmInTurn (m :: rest)) e =
          exec (confirmBooking m.1 m.2.1 m.2.2 none >>= fun _ => confirmInTurn rest) e := rfl
      have proper := valid.proper m List.mem_cons_self
      rw [run]
      cases passed : e.checkBooking m.1 m.2.1 m.2.2 none 0 with
      | error refused =>
          rw [exec_bind_error (confirmBooking_refused (c := (m.1, m.2.2, none)) passed)]
          apply iff_of_false (by simp)
          intro fit
          have admits := fit.opened m List.mem_cons_self
          obtain ⟨inBounds, _, _, rs, _, present, _⟩ := id admits
          have wf := h.consistent.wellFormed _ rs present
          have room := valid.room _ rs present
          rw [membersOn_cons, if_pos rfl, List.length_cons] at room
          have fits := fit.together _ rs present
          rw [candidatesOn_cons, if_pos rfl, fitTogether_cons] at fits
          have noConflict : checkNoConflict rs m.2.2 e.clock = .ok () := by
            unfold checkNoConflict
            rw [checkNoConflictExcluding_ok wf (validateSpan_admits proper inBounds)]
            simp only [ResourceState.othersAt_none]
            exact fits.1
          have ok := (checkBooking_ok_iff (c := (m.1, m.2.2, none)) present).mpr
            ⟨admits, valid.unused m List.mem_cons_self, by omega, noConflict⟩
          rw [passed] at ok
          cases ok
      | ok u =>
          obtain ⟨e₁, ran, wrote⟩ := confirmBooking_wrote (c := (m.1, m.2.2, none)) h proper passed
          obtain ⟨inBounds, _, _, rs, present, _⟩ := checkBooking_ok passed
          obtain ⟨admits, _, _, noConflict⟩ := (checkBooking_ok_iff (c := (m.1, m.2.2, none)) present).mp passed
          have wf := h.consistent.wellFormed _ rs present
          unfold checkNoConflict at noConflict
          rw [checkNoConflictExcluding_ok wf (validateSpan_admits proper inBounds)] at noConflict
          simp only [ResourceState.othersAt_none] at noConflict
          have booked := booked_of_wrote (c := (m.1, m.2.2, none)) h present wrote
          rw [exec_bind_ok ran, ih booked.healthy (booked.membersLeft present valid),
            booked.fitInTurn_iff present admits noConflict]

/-! ## The batch -/

/-- What a batch has to satisfy on the resource of each member. -/
def AdmitsOn (e : Engine) (members : List (Ulid × Ulid × Span)) (r : Ulid) : Prop :=
  ∃ guard rules, e.store.getResource r = some guard ∧ guard.intervals.length < maxIntervalsPerResource ∧
    e.batchRules members r = .ok rules ∧ e.admitOn guard rules (membersOn members r) = .ok ()

theorem admitBatch_ok_iff : e.admitBatch members = .ok () ↔ members.length ≤ maxBatchSize ∧
    (∀ m ∈ members, validateSpan m.2.2 = .ok ()) ∧ (members.map (·.1)).Nodup ∧
      (∀ m ∈ members, e.store.getResourceForEntity m.1 = none) ∧ ∀ m ∈ members, e.AdmitsOn members m.2.1 := by
  have listed : ∀ m ∈ members, m.2.1 ∈ ascending (members.map (·.2.1)) := fun m inside =>
    mem_ascending.mpr (List.mem_map_of_mem inside)
  constructor
  · intro passed
    obtain ⟨_, size, passed⟩ := bind_ok.mp passed
    obtain ⟨_, spans, passed⟩ := bind_ok.mp passed
    obtain ⟨_, nodup, passed⟩ := bind_ok.mp passed
    obtain ⟨context, contextOk, passed⟩ := bind_ok.mp passed
    obtain ⟨locked, lock, passed⟩ := bind_ok.mp passed
    obtain ⟨_, below, passed⟩ := bind_ok.mp passed
    obtain ⟨_, fresh, admitted⟩ := bind_ok.mp passed
    refine ⟨Nat.le_of_not_lt (rejectIf_ok.mp size), forM_ok.mp spans, rejectRepeats_ok.mp nodup,
      fun m inside => rejectReusedId_ok.mp (forM_ok.mp fresh m inside), fun m inside => ?_⟩
    unfold lockResources at lock
    rw [ascending_ascending] at lock
    obtain ⟨guard, rules, row, present, rulesOk⟩ := mapM_ok_zip lock contextOk (listed m inside)
    have isLocked : guard ∈ locked := (List.of_mem_zip (List.of_mem_zip row).1).2
    refine ⟨guard, rules, resource_ok.mp present, Nat.lt_of_not_le fun full => rejectIf_ok.mp below ?_, rulesOk,
      forM_ok.mp admitted _ row⟩
    exact List.any_eq_true.mpr ⟨guard, isLocked, decide_eq_true full⟩
  · rintro ⟨size, spans, nodup, fresh, admitted⟩
    have each : ∀ r ∈ ascending (members.map (·.2.1)), e.AdmitsOn members r := by
      intro r inside
      obtain ⟨m, member, rfl⟩ := List.mem_map.mp (mem_ascending.mp inside)
      exact admitted m member
    obtain ⟨context, contextOk⟩ : ∃ context, (ascending (members.map (·.2.1))).mapM (e.batchRules members) = .ok context := by
      apply mapM_ok_iff.mpr
      intro r inside
      obtain ⟨_, rules, _, _, rulesOk, _⟩ := each r inside
      exact ⟨rules, rulesOk⟩
    obtain ⟨locked, lock⟩ : ∃ locked, e.lockResources (ascending (members.map (·.2.1))) = .ok locked := by
      apply lockResources_ok_iff.mpr
      intro r inside
      obtain ⟨guard, _, present, _⟩ := each r inside
      rw [present]
      rfl
    have lock' := lock
    unfold lockResources at lock'
    rw [ascending_ascending] at lock'
    refine bind_ok.mpr ⟨(), rejectIf_ok.mpr (Nat.not_lt.mpr size), bind_ok.mpr ⟨(), forM_ok.mpr spans,
      bind_ok.mpr ⟨(), rejectRepeats_ok.mpr nodup, bind_ok.mpr ⟨context, contextOk, bind_ok.mpr ⟨locked, lock,
        bind_ok.mpr ⟨(), rejectIf_ok.mpr fun full => ?_, bind_ok.mpr ⟨(), forM_ok.mpr fun m inside =>
          rejectReusedId_ok.mpr (fresh m inside), forM_ok.mpr fun row inside => ?_⟩⟩⟩⟩⟩⟩⟩
    · obtain ⟨rs, isLocked, tooMany⟩ := List.any_eq_true.mp full
      obtain ⟨r, inside, found⟩ := mapM_ok_result lock' isLocked
      obtain ⟨guard, _, present, room, _⟩ := each r inside
      obtain rfl := Option.some.inj (present.symm.trans (resource_ok.mp found))
      exact absurd (of_decide_eq_true tooMany) (Nat.not_le.mpr room)
    · obtain ⟨⟨r, rs⟩, rules⟩ := row
      obtain ⟨listed, found, rulesFound⟩ := mapM_ok_row lock' contextOk inside
      obtain ⟨guard, rules', present, _, rulesOk, admitted⟩ := each r listed
      obtain rfl := Option.some.inj (present.symm.trans (resource_ok.mp found))
      cases rulesOk.symm.trans rulesFound
      exact admitted

theorem admitOn_ok_iff {guard : ResourceState} {rules : InheritedRules} {batch : List (Ulid × Span)} :
    e.admitOn guard rules batch = .ok () ↔
      (∀ m ∈ batch, checkRulesAdmit guard m.2 rules.nonBlocking rules.blocking rules.ancestorHasSchedule = .ok () ∧
        checkNoConflict guard m.2 e.clock = .ok ()) ∧
      (1 < batch.length → if guard.capacity.toNat ≤ 1 then checkPairwise guard.buffer batch = .ok ()
        else checkBatchCapacity guard (batch.map (·.2)) e.clock = .ok ()) := by
  unfold admitOn
  rw [bind_ok]
  have each : ∀ m : Ulid × Span, (do
      checkRulesAdmit guard m.2 rules.nonBlocking rules.blocking rules.ancestorHasSchedule
      checkNoConflict guard m.2 e.clock : Except EngineError Unit) = .ok () ↔
      checkRulesAdmit guard m.2 rules.nonBlocking rules.blocking rules.ancestorHasSchedule = .ok () ∧
        checkNoConflict guard m.2 e.clock = .ok () := by
    intro m
    rw [bind_ok]
    exact ⟨fun ⟨_, opens, room⟩ => ⟨opens, room⟩, fun ⟨opens, room⟩ => ⟨(), opens, room⟩⟩
  simp only [forM_ok, each, exists_const]
  apply and_congr_right
  intro _
  by_cases several : 1 < batch.length
  · rw [if_pos several, imp_iff_right several]
    split <;> rfl
  · rw [if_neg several]
    exact iff_of_true rfl fun more => absurd more several

/-- The checks of several members on one resource, against its load and against each other. -/
theorem fit_and_calm_iff {rs : ResourceState} (wf : rs.WellFormed) {batch : List (Ulid × Span)}
    (admitted : ∀ m ∈ batch, m.2.Admitted) (few : rs.intervals.length + batch.length < u32Max) :
    ((∀ m ∈ batch, checkNoConflict rs m.2 e.clock = .ok ()) ∧
      (1 < batch.length → if rs.capacity.toNat ≤ 1 then checkPairwise rs.buffer batch = .ok ()
        else checkBatchCapacity rs (batch.map (·.2)) e.clock = .ok ())) ↔
    FitTogether rs e.clock (batch.map fun m => (m.1, m.2, none)) ∧ CalmAround rs e.clock (batch.map (·.2)) := by
  have spans : (batch.map fun m => ((m.1, m.2, none) : Candidate)).map (·.2.1) = batch.map (·.2) := by
    rw [List.map_map]
    rfl
  have admittedSpans : ∀ s ∈ batch.map (·.2), s.Admitted := List.forall_mem_map.mpr admitted
  have sweep : 1 < batch.length → 1 < rs.capacity.toNat → (checkBatchCapacity rs (batch.map (·.2)) e.clock = .ok () ↔ _) :=
    fun several many => checkBatchCapacity_iff wf admittedSpans
      (by rintro nil; rw [List.map_eq_nil_iff] at nil; rw [nil] at several; cases several) many
      (by rw [List.length_map]; exact few)
  unfold FitTogether CalmAround
  rw [spans, List.length_map]
  constructor
  · rintro ⟨each, together⟩
    refine ⟨fun c inside t covers => ?_, fun several many t => ?_⟩
    · obtain ⟨m, member, rfl⟩ := List.mem_map.mp inside
      exact admittedOn_room wf admitted ⟨each, together⟩ ⟨m.2, List.mem_map_of_mem member, covers⟩
    · have swept := together several
      rw [if_neg (by omega), sweep several many] at swept
      exact Nat.le_of_add_right_le (swept t)
  · rintro ⟨fit, calm⟩
    have fits : ∀ t, 0 < batchAt rs (batch.map (·.2)) t →
        rs.liveAt e.clock t + batchAt rs (batch.map (·.2)) t ≤ rs.capacity.toNat := by
      intro t some
      obtain ⟨s, inside, covers⟩ := List.countP_pos_iff.mp some
      obtain ⟨m, member, rfl⟩ := List.mem_map.mp inside
      exact fit (m.1, m.2, none) (List.mem_map_of_mem member) t covers
    refine ⟨fun m member => ?_, fun several => ?_⟩
    · unfold checkNoConflict
      rw [checkNoConflictExcluding_ok wf (admitted m member)]
      intro t covers
      have counted : 0 < batchAt rs (batch.map (·.2)) t :=
        List.countP_pos_iff.mpr ⟨m.2, List.mem_map_of_mem member, covers⟩
      have room := fits t counted
      rw [ResourceState.othersAt_none]
      omega
    · split
      · next one =>
          apply checkPairwise_of_atMostOne wf admitted
          intro t
          rcases Nat.eq_zero_or_pos (batchAt rs (batch.map (·.2)) t) with none | some
          · omega
          · have room := fits t some
            omega
      · next many =>
          rw [sweep several (by omega)]
          intro t
          have around : aroundAt rs e.clock (batch.map (·.2)) t ≤ rs.liveAt e.clock t := aroundAt_le _ t
          rcases Nat.eq_zero_or_pos (batchAt rs (batch.map (·.2)) t) with none | some
          · have quiet := calm several (by omega) t
            omega
          · have room := fits t some
            omega

/-- The rules collected over a wider window give the same verdict on a span. -/
theorem checkRulesAdmit_window (tree : e.store.WellFormedTree) {rs : ResourceState} (present : e.store.getResource r = some rs)
    {span hull : Span} (starts : hull.start ≤ span.start) (ends : span.end ≤ hull.end) :
    ∃ rules rules', e.ruleContext r span 0 = .ok rules ∧
      e.store.collectInheritedRules r (e.store.getParent r) hull = .ok rules' ∧
      (checkRulesAdmit rs span rules.nonBlocking rules.blocking rules.ancestorHasSchedule = .ok () ↔
        checkRulesAdmit rs span rules'.nonBlocking rules'.blocking rules'.ancestorHasSchedule = .ok ()) := by
  obtain ⟨line, lineage, shallow⟩ := tree.ancestors r rs present
  have timelines : ∀ each ∈ line, each.Timeline := by
    intro each inside
    obtain ⟨p, found⟩ := lineage.present each inside
    exact tree.timelines p each found
  have narrow := InMemoryStore.collectInheritedRules_ok lineage shallow span
  have wide := InMemoryStore.collectInheritedRules_ok lineage shallow hull
  refine ⟨_, _, bind_ok.mpr ⟨rs, resource_ok.mpr present, narrow⟩, wide, ?_⟩
  simp only [InMemoryStore.inherited_hasSchedule]
  apply checkRulesAdmit_congr
  intro t started notEnded
  rw [covers_sortByStart, covers_sortByStart, covers_sortByStart, covers_sortByStart,
    InMemoryStore.inherited_nonBlocking timelines started notEnded,
    InMemoryStore.inherited_blocking timelines started notEnded,
    InMemoryStore.inherited_nonBlocking timelines (starts.trans started) (lt_of_lt_of_le notEnded ends),
    InMemoryStore.inherited_blocking timelines (starts.trans started) (lt_of_lt_of_le notEnded ends)]
  exact ⟨Iff.rfl, Iff.rfl⟩

/-- The rules a batch collects over the hull of its members open each of them as its own do. -/
theorem batchRules_open (tree : e.store.WellFormedTree) {rs : ResourceState} (present : e.store.getResource r = some rs)
    (some : membersOn members r ≠ []) : ∃ rules, e.batchRules members r = .ok rules ∧ ∀ m ∈ membersOn members r,
      (e.Open r (m.1, m.2, none) ↔ validateSpan m.2 = .ok () ∧
        checkRulesAdmit rs m.2 rules.nonBlocking rules.blocking rules.ancestorHasSchedule = .ok ()) := by
  obtain ⟨lo, least⟩ : ∃ lo, (((membersOn members r).map (·.2)).map (·.start)).min? = Option.some lo :=
    Option.ne_none_iff_exists'.mp fun none => some (by simpa using none)
  obtain ⟨hi, most⟩ : ∃ hi, (((membersOn members r).map (·.2)).map (·.end)).max? = Option.some hi :=
    Option.ne_none_iff_exists'.mp fun none => some (by simpa using none)
  have hull : e.batchRules members r = e.store.collectInheritedRules r (e.store.getParent r) ⟨lo, hi⟩ := by
    simp only [batchRules, least, most]
  obtain ⟨first, rest⟩ := List.exists_mem_of_ne_nil _ some
  have within : ∀ m ∈ membersOn members r, lo ≤ m.2.start ∧ m.2.end ≤ hi := by
    intro m inside
    have span : m.2 ∈ (membersOn members r).map (·.2) := List.mem_map_of_mem inside
    exact ⟨(List.min?_eq_some_iff.mp least).2 _ (List.mem_map_of_mem span),
      (List.max?_eq_some_iff.mp most).2 _ (List.mem_map_of_mem span)⟩
  obtain ⟨_, rules, _, wide, _⟩ := @checkRulesAdmit_window e r tree rs present first.2 ⟨lo, hi⟩
    (within first rest).1 (within first rest).2
  refine ⟨rules, hull.trans wide, fun m inside => ?_⟩
  obtain ⟨own, rules', context, wide', verdict⟩ := @checkRulesAdmit_window e r tree rs present m.2 ⟨lo, hi⟩
    (within m inside).1 (within m inside).2
  cases wide.symm.trans wide'
  rw [← verdict]
  constructor
  · rintro ⟨valid, _, rules', rs', context', found, opens⟩
    obtain rfl := Option.some.inj (present.symm.trans found)
    cases context.symm.trans context'
    exact ⟨valid, opens⟩
  · rintro ⟨valid, opens⟩
    exact ⟨valid, rfl, own, rs, context, present, opens⟩

/-- Around the members of one resource the load is nowhere above its capacity. -/
def NoOverload (e : Engine) (members : List (Ulid × Ulid × Span)) : Prop :=
  ∀ r rs, e.store.getResource r = some rs → CalmAround rs e.clock ((membersOn members r).map (·.2))

theorem mem_membersOn {m : Ulid × Ulid × Span} (inside : m ∈ members) : (m.1, m.2.2) ∈ membersOn members m.2.1 :=
  List.mem_map.mpr ⟨m, List.mem_filter.mpr ⟨inside, decide_eq_true rfl⟩, rfl⟩

theorem of_mem_membersOn {m : Ulid × Span} (inside : m ∈ membersOn members r) : (m.1, r, m.2) ∈ members := by
  obtain ⟨given, onList, rfl⟩ := List.mem_map.mp inside
  obtain ⟨member, same⟩ := List.mem_filter.mp onList
  rw [← of_decide_eq_true same]
  exact member

/-- On one resource the batch asks what its members in turn do, and calm around them. -/
theorem admitsOn_iff (h : e.Healthy) (tree : e.store.WellFormedTree) (valid : e.Members members) {rs : ResourceState}
    (present : e.store.getResource r = some rs) (some : membersOn members r ≠ [])
    (spans : ∀ m ∈ members, validateSpan m.2.2 = .ok ()) :
    e.AdmitsOn members r ↔ (∀ m ∈ membersOn members r, e.Open r (m.1, m.2, none)) ∧
      FitTogether rs e.clock (candidatesOn members r) ∧ CalmAround rs e.clock ((membersOn members r).map (·.2)) := by
  obtain ⟨rules, collected, opens⟩ := batchRules_open tree present some
  have wf := h.consistent.wellFormed r rs present
  have room := valid.room r rs present
  have positive := List.length_pos_iff.mpr some
  have admitted : ∀ m ∈ membersOn members r, m.2.Admitted := by
    intro m inside
    have given := of_mem_membersOn inside
    exact validateSpan_admits (valid.proper _ given) (spans _ given)
  have few : rs.intervals.length + (membersOn members r).length < u32Max := by
    simp only [maxIntervalsPerResource] at room
    simp only [u32Max]
    omega
  have checks : (∀ m ∈ membersOn members r, e.Open r (m.1, m.2, none)) ↔ ∀ m ∈ membersOn members r,
      checkRulesAdmit rs m.2 rules.nonBlocking rules.blocking rules.ancestorHasSchedule = .ok () := by
    apply forall₂_congr
    intro m inside
    rw [opens m inside, and_iff_right (spans _ (of_mem_membersOn inside))]
  have passes : e.AdmitsOn members r ↔ e.admitOn rs rules (membersOn members r) = .ok () := by
    constructor
    · rintro ⟨guard, rules', found, _, collected', passed⟩
      obtain rfl := Option.some.inj (present.symm.trans found)
      cases collected.symm.trans collected'
      exact passed
    · intro passed
      exact ⟨rs, rules, present, by omega, collected, passed⟩
  rw [passes, admitOn_ok_iff, forall₂_and, and_assoc, fit_and_calm_iff wf admitted few, checks]
  rfl

/-- A batch is admitted exactly when its members are in turn and the load around them is nowhere
    above the capacity. -/
theorem admitBatch_iff (h : e.Healthy) (tree : e.store.WellFormedTree) (valid : e.Members members) :
    e.admitBatch members = .ok () ↔ e.FitInTurn members ∧ e.NoOverload members := by
  have nonempty : ∀ m ∈ members, membersOn members m.2.1 ≠ [] := fun m inside =>
    List.ne_nil_of_mem (mem_membersOn inside)
  rw [admitBatch_ok_iff]
  constructor
  · rintro ⟨_, spans, _, _, admitted⟩
    have each : ∀ m ∈ members, ∀ rs, e.store.getResource m.2.1 = some rs → _ := fun m inside rs present =>
      (admitsOn_iff h tree valid present (nonempty m inside) spans).mp (admitted m inside)
    have onResource : ∀ r, membersOn members r = [] ∨ ∃ m ∈ members, m.2.1 = r := by
      intro r
      rcases List.eq_nil_or_concat (membersOn members r) with nil | ⟨_, last, same⟩
      · exact .inl nil
      · have inside : last ∈ membersOn members r := by rw [same]; simp
        exact .inr ⟨_, of_mem_membersOn inside, rfl⟩
    refine ⟨⟨fun m inside => ?_, fun r rs present => ?_⟩, fun r rs present => ?_⟩
    · obtain ⟨rs, _, present, _⟩ := admitted m inside
      exact (each m inside rs present).1 (m.1, m.2.2) (mem_membersOn inside)
    · rcases onResource r with nil | ⟨m, inside, rfl⟩
      · intro c onList
        rw [candidatesOn, nil] at onList
        cases onList
      · exact (each m inside rs present).2.1
    · rcases onResource r with nil | ⟨m, inside, rfl⟩
      · rw [nil]
        exact fun several => by cases several
      · exact (each m inside rs present).2.2
  · rintro ⟨fit, calm⟩
    have spans : ∀ m ∈ members, validateSpan m.2.2 = .ok () := fun m inside => (fit.opened m inside).1
    refine ⟨valid.size, spans, valid.idsNodup, valid.unused, fun m inside => ?_⟩
    obtain ⟨_, _, _, rs, _, present, _⟩ := fit.opened m inside
    refine (admitsOn_iff h tree valid present (nonempty m inside) spans).mpr ⟨fun m' onList => ?_,
      fit.together _ rs present, calm _ rs present⟩
    exact fit.opened _ (of_mem_membersOn onList)

theorem Members.perm {other : List (Ulid × Ulid × Span)} (valid : e.Members members) (same : other.Perm members) :
    e.Members other where
  size := same.length_eq ▸ valid.size
  proper m inside := valid.proper m (same.mem_iff.mp inside)
  idsNodup := (same.map _).nodup_iff.mpr valid.idsNodup
  unused m inside := valid.unused m (same.mem_iff.mp inside)
  room r rs present := by
    have shared : (membersOn other r).Perm (membersOn members r) := (same.filter _).map _
    rw [shared.length_eq]
    exact valid.room r rs present

theorem FitInTurn.perm {other : List (Ulid × Ulid × Span)} (fit : e.FitInTurn members) (same : other.Perm members) :
    e.FitInTurn other where
  opened m inside := fit.opened m (same.mem_iff.mp inside)
  together r rs present := by
    have shared : (candidatesOn other r).Perm (candidatesOn members r) := ((same.filter _).map _).map _
    intro c inside t covers
    have fits := fit.together r rs present c (shared.mem_iff.mp inside) t covers
    unfold batchAt at fits ⊢
    rw [(shared.map (·.2.1)).countP_eq]
    exact fits

/-- The members are admitted in one order exactly when they are in every order. -/
theorem every_order_iff (h : e.Healthy) (valid : e.Members members) :
    (∀ order : List (Ulid × Ulid × Span), order.Perm members → (exec (confirmInTurn order) e).1 = .ok ()) ↔
      e.FitInTurn members := by
  constructor
  · intro every
    exact (confirmInTurn_ok h valid).mp (every members (.refl _))
  · intro fit order same
    exact (confirmInTurn_ok h (valid.perm same)).mpr (fit.perm same)

theorem readAt_healthy (h : e.Healthy) (now : Ms) : (e.readAt now).Healthy := ⟨h.running, h.noFault, h.consistent⟩

/-- A batch is judged as its members in turn: accepted exactly when confirming them one after
    another, in any order, accepts each. -/
def JudgedInTurn (e : Engine) (members : List (Ulid × Ulid × Span)) : Prop :=
  e.admitBatch members = .ok () ↔
    ∀ order : List (Ulid × Ulid × Span), order.Perm members → (exec (confirmInTurn order) e).1 = .ok ()

/-- In every reachable state and at every reading of the clock, a batch is judged as its members
    in turn exactly when, if they all fit, the load around them is nowhere above the capacity. -/
theorem batch_judged_iff (reached : Reachable (fun _ _ => True) e) (now : Ms) (valid : (e.readAt now).Members members) :
    (e.readAt now).JudgedInTurn members ↔
      ((e.readAt now).FitInTurn members → (e.readAt now).NoOverload members) := by
  have h := readAt_healthy reached.healthy now
  have tree : (e.readAt now).store.WellFormedTree := reached.wellFormedTree
  unfold JudgedInTurn
  rw [every_order_iff h valid, admitBatch_iff h tree valid]
  exact ⟨fun judged fit => (judged.mpr fit).2, fun calm => ⟨fun both => both.1, fun fit => ⟨fit, calm fit⟩⟩⟩

theorem valid_50_60 : Span.Valid ⟨50, 60⟩ := by decide

/-- A resource of capacity three with three bookings of one span, whose capacity is then lowered. -/
def lowered : Engine :=
  (((((start 0 1000).next (.op (.createResource 1 none none 3 none))).next
    (.op (.confirmBooking 2 1 ⟨⟨50, 60⟩, valid_50_60⟩ none 0))).next
    (.op (.confirmBooking 3 1 ⟨⟨50, 60⟩, valid_50_60⟩ none 0))).next
    (.op (.confirmBooking 4 1 ⟨⟨50, 60⟩, valid_50_60⟩ none 0))).next (.op (.updateResource 1 none (some 2) none))

theorem lowered_reachable : Reachable (fun _ _ => True) lowered :=
  .step _ (.step _ (.step _ (.step _ (.step _ (.start 0 1000) trivial trivial) trivial trivial)
    trivial trivial) trivial trivial) trivial trivial

theorem lowered_only {rs : ResourceState} (present : lowered.store.getResource r = some rs) :
    rs.intervals.length = 3 := by
  have listed : r ∈ lowered.store.resourceIds := mem_resourceIds.mpr (by rw [present]; rfl)
  have one : lowered.store.resourceIds = [1] := by decide +kernel
  rw [one, List.mem_singleton] at listed
  subst listed
  have three : (lowered.store.getResource 1).map (·.intervals.length) = some 3 := by decide +kernel
  rw [present] at three
  exact Option.some.inj three

/-- Two members on either side of the bookings. -/
def besideBookings : List (Ulid × Ulid × Span) := [(5, 1, ⟨10, 20⟩), (6, 1, ⟨80, 90⟩)]

/-- Two members behind them. -/
def behindBookings : List (Ulid × Ulid × Span) := [(5, 1, ⟨70, 80⟩), (6, 1, ⟨80, 90⟩)]

theorem twoMembers_room (rs : ResourceState) (length : rs.intervals.length = 3) (two : members.length = 2) (r : Ulid) :
    rs.intervals.length + (membersOn members r).length ≤ maxIntervalsPerResource := by
  have fewer : (membersOn members r).length ≤ members.length := by
    rw [membersOn, List.length_map]
    exact List.length_filter_le _ _
  simp only [maxIntervalsPerResource]
  omega

theorem besideBookings_valid : (lowered.readAt 0).Members besideBookings where
  size := by decide
  proper := by decide
  idsNodup := by decide
  unused := by decide +kernel
  room r rs present := twoMembers_room rs (lowered_only present) rfl r

theorem behindBookings_valid : (lowered.readAt 0).Members behindBookings where
  size := by decide
  proper := by decide
  idsNodup := by decide
  unused := by decide +kernel
  room r rs present := twoMembers_room rs (lowered_only present) rfl r

theorem behindBookings_judged_iff : (lowered.readAt 0).JudgedInTurn behindBookings ↔
    ((lowered.readAt 0).FitInTurn behindBookings → (lowered.readAt 0).NoOverload behindBookings) :=
  batch_judged_iff lowered_reachable 0 behindBookings_valid

/-- Each member on either side is confirmed, in both orders, and the batch of both is refused
    for the bookings between them. -/
theorem besideBookings_refused :
    Reachable (fun _ _ => True) lowered ∧ (lowered.readAt 0).Members besideBookings ∧
      (exec (confirmInTurn besideBookings) (lowered.readAt 0)).1 = .ok () ∧
      (lowered.readAt 0).admitBatch besideBookings = .error (.capacityExceeded 2) ∧
      ¬ (lowered.readAt 0).JudgedInTurn besideBookings := by
  have h := readAt_healthy lowered_reachable.healthy 0
  have inTurn : (exec (confirmInTurn besideBookings) (lowered.readAt 0)).1 = .ok () := by decide +kernel
  have refused : (lowered.readAt 0).admitBatch besideBookings = .error (.capacityExceeded 2) := by decide +kernel
  refine ⟨lowered_reachable, besideBookings_valid, inTurn, refused, fun judged => ?_⟩
  have every := (every_order_iff h besideBookings_valid).mpr ((confirmInTurn_ok h besideBookings_valid).mp inTurn)
  have accepted := judged.mpr every
  rw [refused] at accepted
  cases accepted

end Engine

end Deltat
