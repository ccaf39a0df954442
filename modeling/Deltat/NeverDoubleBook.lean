import Deltat.Exactness
import Deltat.Runs

/-! # Never double-book

At every instant the live allocations on a resource, each with its turnaround buffer, are
at most the resource's capacity. Every admitted write keeps this; what makes time free, or
lets a hold lapse, can only lower the count.
-/

namespace Deltat

open Lib Lib.Outcome Conflict

/-- Whether a change leaves the capacity and the buffer of its resource alone. -/
def Event.KeepsRoom (ev : Event) : Prop :=
  ∀ rs : ResourceState, (ev.setFields rs).capacity = rs.capacity ∧
    (ev.setFields rs).bufferAfter = rs.bufferAfter

namespace ResourceState

variable {rs : ResourceState} {now t : Ms}

theorem foldl_applySingle_room {changes : List Event} (keeps : ∀ ev ∈ changes, ev.KeepsRoom) :
    ∀ rs : ResourceState, (changes.foldl applySingle rs).capacity = rs.capacity ∧
      (changes.foldl applySingle rs).bufferAfter = rs.bufferAfter := by
  induction changes with
  | nil => exact fun _ => ⟨rfl, rfl⟩
  | cons ev rest ih =>
      intro rs
      obtain ⟨capacity, bufferAfter⟩ := ih (fun b inRest => keeps b (List.mem_cons_of_mem _ inRest))
        (rs.applySingle ev)
      obtain ⟨sameCapacity, sameBuffer, _⟩ := applySingle_fields rs ev
      obtain ⟨keptCapacity, keptBuffer⟩ := keeps ev List.mem_cons_self rs
      exact ⟨capacity.trans (sameCapacity.trans keptCapacity), bufferAfter.trans (sameBuffer.trans keptBuffer)⟩

/-- The live allocations among a list of intervals that occupy the instant. -/
def countAt (rs : ResourceState) (now : Ms) (intervals : List Interval) (t : Ms) : Nat :=
  intervals.countP fun i => i.kind.live now && rs.occupies i.span t

theorem countAt_mono {sub all : List Interval} (le : sub.Sublist all) :
    rs.countAt now sub t ≤ rs.countAt now all t :=
  le.countP_le

/-- After independent changes that keep the room, the count is that of the additions and of
    what the changes leave. -/
theorem liveAt_foldl {changes : List Event} (wf : rs.WellFormed) (accepts : ∀ ev ∈ changes, rs.Accepts ev)
    (apart : changes.Pairwise Event.Independent) (keeps : ∀ ev ∈ changes, ev.KeepsRoom) :
    (changes.foldl applySingle rs).liveAt now t =
      rs.countAt now (changes.filterMap (·.adds)) t +
        rs.countAt now (rs.intervals.filter fun i => decide (some i.id ∉ changes.map (·.removes))) t := by
  have perm := (foldl_applySingle apart wf accepts).2
  have buffer : (changes.foldl applySingle rs).buffer = rs.buffer := by
    unfold ResourceState.buffer
    rw [(foldl_applySingle_room keeps rs).2]
  have same : (changes.foldl applySingle rs).occupies = rs.occupies := by
    funext s u
    simp only [occupies, buffer]
  unfold liveAt countAt
  rw [same, perm.countP_eq, List.countP_append]

end ResourceState

namespace Engine

variable {e e' : Engine}

/-- No instant of any resource has more live allocations than the resource's capacity. -/
def NoOverbooking (e : Engine) : Prop :=
  ∀ r rs, e.store.getResource r = some rs → ∀ t, rs.liveAt e.clock t ≤ rs.capacity.toNat

/-- The changes of a write that fall on one resource. -/
def own (records : List Event) (r : Ulid) : List Event :=
  (records.flatMap Event.perResource).filter (·.resourceId? = some r)

/-- A resource accepts its own changes of an admitted write, and they are independent. -/
theorem Admits.accepted (h : e.Healthy) {records : List Event} (admits : e.Admits records)
    (changes : ∀ ev ∈ records, ev.isChange) {r : Ulid} {rs : ResourceState}
    (present : e.store.getResource r = some rs) :
    (∀ ev ∈ own records r, rs.Accepts ev) ∧ (own records r).Pairwise Event.Independent := by
  have all := admits.allApply h changes
  refine ⟨fun ev inside => ?_, all.apart.sublist List.filter_sublist⟩
  obtain ⟨member, routed⟩ := List.mem_filter.mp inside
  obtain ⟨q, applies⟩ := all.applies ev member
  rw [decide_eq_true_eq, applies.routed] at routed
  obtain rfl := Option.some.inj routed
  exact h.consistent.indexed.accepts present applies

/-- A resource after a write of change records is its own changes applied to it before. -/
theorem Wrote.changed (h : e.Healthy) {records : List Event} (admits : e.Admits records)
    (wrote : e.Wrote e' records) (changes : ∀ ev ∈ records, ev.isChange) {r : Ulid} {rs' : ResourceState}
    (after : e'.store.getResource r = some rs') :
    ∃ rs, e.store.getResource r = some rs ∧ rs' = (own records r).foldl ResourceState.applySingle rs ∧
      (∀ ev ∈ own records r, rs.Accepts ev) ∧ (own records r).Pairwise Event.Independent := by
  rw [wrote.table, Event.foldl_stepOn r changes] at after
  obtain ⟨rs, present, rfl⟩ := Option.map_eq_some_iff.mp after
  exact ⟨rs, present, rfl, admits.accepted h changes present⟩

/-- A write keeps the bound when its additions leave room wherever they are live. -/
theorem room_after (h : e.Healthy) (fits : e.NoOverbooking) {records : List Event} (admits : e.Admits records)
    (wrote : e.Wrote e' records) (changes : ∀ ev ∈ records, ev.isChange)
    (keeps : ∀ r, ∀ ev ∈ own records r, ev.KeepsRoom)
    (room : ∀ r rs t, e.store.getResource r = some rs →
      0 < rs.countAt e.clock ((own records r).filterMap (·.adds)) t →
      rs.countAt e.clock ((own records r).filterMap (·.adds)) t +
        rs.countAt e.clock (rs.intervals.filter fun i =>
          decide (some i.id ∉ (own records r).map (·.removes))) t ≤ rs.capacity.toNat) :
    e'.NoOverbooking := by
  intro r rs' after t
  obtain ⟨rs, present, rfl, accepts, apart⟩ := wrote.changed h admits changes after
  have wf := h.consistent.wellFormed r rs present
  rw [wrote.clock, ResourceState.liveAt_foldl wf accepts apart (keeps r),
    (ResourceState.foldl_applySingle_room (keeps r) rs).1]
  rcases Nat.eq_zero_or_pos (rs.countAt e.clock ((own records r).filterMap (·.adds)) t) with none | some
  · rw [none, Nat.zero_add]
    exact (ResourceState.countAt_mono List.filter_sublist).trans (fits r rs present t)
  · exact room r rs t present some

theorem own_single {ev : Event} {rid : Ulid} (routed : ev.resourceId? = some rid) (r : Ulid) :
    own [ev] r = if rid = r then [ev] else [] := by
  rw [own, List.flatMap_singleton, Event.perResource_single routed]
  by_cases same : rid = r <;> simp [routed, same]

/-- A single change keeps the bound when what it adds, if live, was checked. -/
theorem room_single (h : e.Healthy) (fits : e.NoOverbooking) {ev : Event} {rid : Ulid}
    (admits : e.Admits [ev]) (wrote : e.Wrote e' [ev]) (change : ev.isChange)
    (routed : ev.resourceId? = some rid) (keeps : ev.KeepsRoom)
    (free : ∀ i, ev.adds = some i → i.kind.live e.clock = true → ∀ rs, e.store.getResource rid = some rs →
      ∀ t, rs.occupies i.span t = true → rs.liveAt e.clock t < rs.capacity.toNat) : e'.NoOverbooking := by
  refine room_after h fits admits wrote (by simpa using change) (fun r b inside => ?_) fun r rs t present some => ?_
  · rw [own_single routed] at inside
    split at inside
    · rwa [List.mem_singleton.mp inside]
    · cases inside
  · rw [own_single routed] at some ⊢
    split at some
    · next same =>
        subst same
        simp only [↓reduceIte]
        have atMostOne : rs.countAt e.clock ([ev].filterMap (·.adds)) t ≤ 1 :=
          List.countP_le_length.trans (List.length_filterMap_le _ _)
        obtain ⟨i, added, counted⟩ := List.countP_pos_iff.mp some
        rw [List.mem_filterMap] at added
        obtain ⟨_, isEv, adds⟩ := added
        rw [List.mem_singleton.mp isEv] at adds
        rw [Bool.and_eq_true] at counted
        have below := free i adds counted.1 rs present t counted.2
        have kept : rs.countAt e.clock (rs.intervals.filter fun i => decide (Option.some i.id ∉ [ev].map (·.removes))) t ≤
            rs.liveAt e.clock t := ResourceState.countAt_mono List.filter_sublist
        omega
    · cases some

/-- The room a passed conflict check leaves for a new allocation. -/
theorem room_of_check (h : e.Healthy) {rid : Ulid} {guard : ResourceState} {span : Span}
    (present : e.store.getResource rid = some guard) (admitted : span.Admitted)
    (passed : checkNoConflict guard span e.clock = .ok ()) :
    ∀ rs, e.store.getResource rid = some rs → ∀ t, rs.occupies span t = true →
      rs.liveAt e.clock t < rs.capacity.toNat := by
  intro rs found t covers
  obtain rfl : guard = rs := Option.some.inj (present.symm.trans found)
  rw [← ResourceState.othersAt_none]
  exact (checkNoConflictExcluding_ok (h.consistent.wellFormed rid guard present) admitted).mp passed t covers

section Batch

variable {α : Type} {members : List α} {mk : α → Event} {toMember : α → Ulid × Ulid × Span}

theorem own_batch (routed : ∀ m, (mk m).resourceId? = some (toMember m).2.1) (r : Ulid) :
    own (members.map mk) r = (members.filter fun m => (toMember m).2.1 = r).map mk := by
  rw [own, perResource_batch fun m => Event.perResource_single (routed m), List.filter_map]
  congr 1
  exact List.filter_congr fun m _ => by simp [routed]

theorem membersOn_spans (r : Ulid) :
    (membersOn (members.map toMember) r).map (·.2) =
      (members.filter fun m => (toMember m).2.1 = r).map (fun m => (toMember m).2.2) := by
  rw [membersOn, List.filter_map, List.map_map, List.map_map]
  rfl

/-- The additions of a batch on one resource are its members there. -/
theorem countAt_batch (routed : ∀ m, (mk m).resourceId? = some (toMember m).2.1)
    (adds : ∀ m, ∃ kind, (mk m).adds = some ⟨(toMember m).1, (toMember m).2.2, kind⟩)
    (rs : ResourceState) (now t : Ms) (r : Ulid) :
    rs.countAt now ((own (members.map mk) r).filterMap (·.adds)) t ≤
      batchAt rs ((membersOn (members.map toMember) r).map (·.2)) t := by
  rw [own_batch routed, membersOn_spans, ResourceState.countAt, batchAt, List.countP_filterMap,
    List.countP_map, List.countP_map]
  refine List.countP_mono_left fun m _ counted => ?_
  obtain ⟨kind, added⟩ := adds m
  simp only [Function.comp_apply, added, Option.map_some, Option.getD_some, Bool.and_eq_true] at counted
  exact counted.2

theorem room_batch (h : e.Healthy) (fits : e.NoOverbooking) (admits : e.Admits (members.map mk))
    (wrote : e.Wrote e' (members.map mk)) (change : ∀ m, (mk m).isChange)
    (routed : ∀ m, (mk m).resourceId? = some (toMember m).2.1)
    (adds : ∀ m, ∃ kind, (mk m).adds = some ⟨(toMember m).1, (toMember m).2.2, kind⟩)
    (keeps : ∀ m, (mk m).KeepsRoom) (proper : ∀ m ∈ members, (toMember m).2.2.Valid)
    (batch : e.AdmittedBatch (members.map toMember)) : e'.NoOverbooking := by
  have changes : ∀ ev ∈ members.map mk, ev.isChange := by
    rw [List.forall_mem_map]
    exact fun m _ => change m
  refine room_after h fits admits wrote changes (fun r ev inside => ?_) fun r rs t present some => ?_
  · rw [own_batch routed] at inside
    obtain ⟨m, _, rfl⟩ := List.mem_map.mp inside
    exact keeps m
  · have counted : rs.countAt e.clock ((own (members.map mk) r).filterMap (·.adds)) t ≤
        batchAt rs ((membersOn (members.map toMember) r).map (·.2)) t :=
      countAt_batch routed adds rs e.clock t r
    have covered : ∃ s ∈ (membersOn (members.map toMember) r).map (·.2), rs.occupies s t = true :=
      List.countP_pos_iff.mp (Nat.lt_of_lt_of_le some counted)
    obtain ⟨m, onR⟩ : ∃ m ∈ members, (toMember m).2.1 = r := by
      obtain ⟨s, inside, _⟩ := covered
      rw [membersOn_spans] at inside
      obtain ⟨m, member, _⟩ := List.mem_map.mp inside
      exact ⟨m, by simpa using List.mem_filter.mp member⟩
    obtain ⟨guard, found, on⟩ := batch.admitted (toMember m) (List.mem_map_of_mem onR.1)
    rw [onR.2] at found on
    obtain rfl : rs = guard := Option.some.inj (present.symm.trans found)
    have admitted : ∀ m ∈ membersOn (members.map toMember) r, m.2.Admitted := by
      intro pair inside
      obtain ⟨m', given, rfl⟩ := List.mem_map.mp inside
      obtain ⟨m'', member, rfl⟩ := List.mem_map.mp (List.mem_filter.mp given).1
      exact validateSpan_admits (proper m'' member) (batch.spans _ (List.mem_map_of_mem member))
    have fitsBeside := admittedOn_room (h.consistent.wellFormed r rs present) admitted on covered
    have kept : rs.countAt e.clock (rs.intervals.filter fun i =>
        decide (Option.some i.id ∉ (own (members.map mk) r).map (·.removes))) t ≤ rs.liveAt e.clock t :=
      ResourceState.countAt_mono List.filter_sublist
    omega

end Batch

theorem own_commit (c : HoldCommit) (r : Ulid) :
    own [.holdsCommitted [c]] r = if c.resourceId = r then c.events else [] := by
  by_cases same : c.resourceId = r <;>
    simp [own, Event.perResource, HoldCommit.events, Event.resourceId?, same]

/-- The commit of one hold swaps it for a booking whose room the check has seen. -/
theorem room_commit (h : e.Healthy) (fits : e.NoOverbooking) {c : HoldCommit}
    (admits : e.Admits [.holdsCommitted [c]]) (wrote : e.Wrote e' [.holdsCommitted [c]])
    (admitted : e.AdmittedCommits [c]) : e'.NoOverbooking := by
  refine room_after h fits admits wrote (by simp [Event.isChange]) (fun r ev inside => ?_)
    fun r rs t present some => ?_
  · rw [own_commit] at inside
    split at inside
    · simp only [HoldCommit.events, List.mem_cons, List.not_mem_nil, or_false] at inside
      rcases inside with rfl | rfl <;> exact fun _ => ⟨rfl, rfl⟩
    · cases inside
  · rw [own_commit] at some ⊢
    split at some
    · next same =>
        subst same
        obtain ⟨guard, hold, found, isHold, _, passed, entry⟩ := admitted.admitted c List.mem_cons_self
        obtain rfl : rs = guard := Option.some.inj (present.symm.trans found)
        have wf := h.consistent.wellFormed _ rs present
        obtain ⟨heldHere, _, _⟩ := findIntervalOfKind_mem isHold
        have span : c.span = hold.span := by rw [entry]
        simp only [↓reduceIte]
        have added : c.events.filterMap (·.adds) = [⟨c.bookingId, c.span, .booking c.label⟩] := rfl
        rw [added] at some ⊢
        have covers : rs.occupies hold.span t = true := by
          obtain ⟨i, inside, counted⟩ := List.countP_pos_iff.mp some
          rw [List.mem_singleton.mp inside, Bool.and_eq_true] at counted
          exact span ▸ counted.2
        have others := (checkNoConflictExcluding_ok wf (wf.admitted hold heldHere).span).mp passed t covers
        have kept : rs.countAt e.clock (rs.intervals.filter fun i =>
            decide (Option.some i.id ∉ c.events.map (·.removes))) t =
              rs.othersAt e.clock (Option.some c.holdId) t := by
          rw [ResourceState.countAt, List.countP_filter, ResourceState.othersAt]
          refine List.countP_congr fun i _ => ?_
          simp only [HoldCommit.events, List.map_cons, List.map_nil, Event.removes, Bool.and_eq_true,
            decide_eq_true_eq, List.mem_cons, List.not_mem_nil, or_false, reduceCtorEq]
          tauto
        have atMostOne : rs.countAt e.clock [⟨c.bookingId, c.span, .booking c.label⟩] t ≤ 1 :=
          List.countP_le_length
        omega
    · cases some

end Engine

/-! ## Runs -/

/-- The operations a run may use: updates change only the name, a commit has one entry. -/
def Op.KeepsRoom : Op → Prop
  | updateResource _ _ capacity bufferAfter => capacity = none ∧ bufferAfter = none
  | commitHolds commits _ => commits.length = 1
  | _ => True

/-- The records such operations write. -/
def Event.Ordinary : Event → Prop
  | resourceUpdated _ _ capacity bufferAfter => capacity = none ∧ bufferAfter = none
  | holdsCommitted entries => entries.length = 1
  | _ => True

theorem Op.KeepsRoom.ordinary {o : Op} (keeps : o.KeepsRoom) {records : List Event} (wrote : o.Writes records) :
    ∀ ev ∈ records, ev.Ordinary := by
  cases o with
  | updateResource id name capacity bufferAfter =>
      obtain rfl := wrote
      intro ev inside
      rw [List.mem_singleton.mp inside]
      exact keeps
  | commitHolds commits limit =>
      obtain ⟨entries, rfl, given⟩ := wrote
      have length := congrArg List.length given
      rw [List.length_map] at length
      have one : commits.length = 1 := keeps
      simp [Event.Ordinary, length, one]
  | batchCreateResources | batchAddRules =>
      obtain ⟨r, _, rfl⟩ := wrote
      simp [Event.Ordinary]
  | updateRule | removeRule | placeHold | releaseHold | expireHold | cancelBooking =>
      obtain ⟨_, rfl⟩ := wrote
      simp [Event.Ordinary]
  | batchPlaceHolds =>
      obtain ⟨clamped, rfl⟩ := wrote
      rw [List.forall_mem_map]
      exact fun _ _ => trivial
  | batchConfirmBookings =>
      obtain rfl := wrote
      rw [List.forall_mem_map]
      exact fun _ _ => trivial
  | createResource | deleteResource | addRule | confirmBooking =>
      obtain rfl := wrote
      simp [Event.Ordinary]

namespace Engine

variable {e e' : Engine}

theorem live_ofBlocking (blocking : Bool) (now : Ms) : (IntervalKind.ofBlocking blocking).live now = false := by
  cases blocking <;> rfl

/-- An admitted write of ordinary records keeps the bound. -/
theorem write_noOverbooking (h : e.Healthy) (fits : e.NoOverbooking) {records : List Event}
    (ordinary : ∀ ev ∈ records, ev.Ordinary) (admits : e.Admits records) (wrote : e.Wrote e' records) :
    e'.NoOverbooking := by
  cases admits with
  | create passed =>
      intro r rs found t
      rw [wrote.table, List.foldl_cons, List.foldl_nil] at found
      simp only [Event.stepOn] at found
      split at found
      · cases found
        exact Nat.zero_le _
      · rw [wrote.clock]
        exact fits r rs found t
  | delete passed =>
      intro r rs found t
      rw [wrote.table, List.foldl_cons, List.foldl_nil] at found
      simp only [Event.stepOn] at found
      split at found
      · cases found
      · rw [wrote.clock]
        exact fits r rs found t
  | update checked present =>
      obtain ⟨rfl, rfl⟩ := ordinary _ List.mem_cons_self
      exact room_single h fits (.update checked present) wrote rfl rfl (fun _ => ⟨rfl, rfl⟩)
        (by rintro i ⟨⟩)
  | addRule proper passed =>
      refine room_single h fits (.addRule proper passed) wrote rfl rfl (fun _ => ⟨rfl, rfl⟩) ?_
      rintro i ⟨⟩ live
      rw [live_ofBlocking] at live
      cases live
  | updateRule proper passed =>
      refine room_single h fits (.updateRule proper passed) wrote rfl rfl (fun _ => ⟨rfl, rfl⟩) ?_
      rintro i ⟨⟩ live
      rw [live_ofBlocking] at live
      cases live
  | removeRule passed =>
      exact room_single h fits (.removeRule passed) wrote rfl rfl (fun _ => ⟨rfl, rfl⟩) (by rintro i ⟨⟩)
  | removeHold passed =>
      exact room_single h fits (.removeHold passed) wrote rfl rfl (fun _ => ⟨rfl, rfl⟩) (by rintro i ⟨⟩)
  | cancelBooking passed =>
      exact room_single h fits (.cancelBooking passed) wrote rfl rfl (fun _ => ⟨rfl, rfl⟩) (by rintro i ⟨⟩)
  | placeHold proper passed =>
      obtain ⟨valid, _, _, _, guard, present, noConflict⟩ := checkHold_ok passed
      refine room_single h fits (.placeHold proper passed) wrote rfl rfl (fun _ => ⟨rfl, rfl⟩) ?_
      rintro i ⟨⟩ _
      exact room_of_check h present (validateSpan_admits proper valid) noConflict
  | confirmBooking proper passed =>
      obtain ⟨valid, _, _, guard, present, noConflict⟩ := checkBooking_ok passed
      refine room_single h fits (.confirmBooking proper passed) wrote rfl rfl (fun _ => ⟨rfl, rfl⟩) ?_
      rintro i ⟨⟩ _
      exact room_of_check h present (validateSpan_admits proper valid) noConflict
  | placeHolds bounds batch =>
      exact room_batch h fits (.placeHolds bounds batch) wrote (fun _ => rfl) (fun _ => rfl)
        (fun _ => ⟨_, rfl⟩) (fun _ _ => ⟨rfl, rfl⟩) (fun m member => (bounds m member).1) batch
  | confirmBookings valid batch =>
      exact room_batch h fits (.confirmBookings valid batch) wrote (fun _ => rfl) (fun _ => rfl)
        (fun _ => ⟨_, rfl⟩) (fun _ _ => ⟨rfl, rfl⟩) (fun m member => (valid m member).1) batch
  | commit passed =>
      obtain ⟨c, rfl⟩ := List.length_eq_one_iff.mp (ordinary _ List.mem_cons_self)
      exact room_commit h fits (.commit passed) wrote (checkCommits_admitted passed).1

theorem countAt_later {rs : ResourceState} {now later : Ms} (le : now ≤ later) (t : Ms) :
    rs.liveAt later t ≤ rs.liveAt now t := by
  refine List.countP_mono_left fun i _ counted => ?_
  rw [Bool.and_eq_true] at counted ⊢
  refine ⟨?_, counted.2⟩
  have live := counted.1
  cases kind : i.kind with
  | hold expiresAt =>
      simp only [kind, IntervalKind.live, Bool.not_eq_true', decide_eq_false_iff_not] at live ⊢
      lia
  | nonBlocking | blocking => simp [kind, IntervalKind.live] at live
  | booking => rfl

/-- The steps of such a run. -/
def Move.KeepsRoom : Move → Prop
  | .op o => o.KeepsRoom
  | _ => True

theorem next_noOverbooking (h : e.Healthy) (fits : e.NoOverbooking) {move : Move} (keeps : Move.KeepsRoom move) :
    (e.next move).NoOverbooking := by
  cases move with
  | tick ms =>
      intro r rs found t
      exact (countAt_later (by simp [next]) t).trans (fits r rs found t)
  | op o =>
      exact next_op_invariant h fits fun _ _ _ healthy before wanted admits wrote =>
        write_noOverbooking healthy before (keeps.ordinary wanted) admits wrote
  | gc now retentionMs =>
      intro r rs found t
      change (e.gcPastIntervals now retentionMs).store.getResource r = some rs at found
      rw [gc_getResource h] at found
      obtain ⟨before, present, rfl⟩ := Option.map_eq_some_iff.mp found
      exact (ResourceState.countAt_mono List.filter_sublist).trans (fits r before present t)
  | compact order =>
      change (e.compactWal order).NoOverbooking
      rw [compactWal_eq h.running]
      exact fits

/-- Never double-book: in every reachable state, at every instant, a resource's live
    allocations with their buffers are at most its capacity. -/
theorem never_double_booked (e : Engine) (reached : Reachable (fun _ move => Move.KeepsRoom move) e)
    (r : Ulid) (rs : ResourceState) (present : e.store.getResource r = some rs) (t : Ms) :
    (rs.intervals.countP fun i =>
      i.kind.live e.clock && decide (i.span.start ≤ t ∧ t < i.span.end + rs.buffer)) ≤ rs.capacity.toNat := by
  have fits : e.Healthy ∧ e.NoOverbooking :=
    reached.invariant (I := fun e => e.Healthy ∧ e.NoOverbooking) (fun clock ttl => ⟨start_healthy clock ttl, by rintro r rs ⟨⟩⟩)
      fun e move both _ keeps => ⟨next_healthy both.1 move, next_noOverbooking both.1 both.2 keeps⟩
  have bound := fits.2 r rs present t
  simpa only [ResourceState.liveAt, ResourceState.occupies, Bool.decide_and] using bound

theorem valid_10_20 : Span.Valid ⟨10, 20⟩ := by decide

/-- A run that creates a resource of capacity one and books it. -/
def bookedOnce : Engine :=
  ((start 0 1000).next (.op (.createResource 1 none none 1 (some 5)))).next
    (.op (.confirmBooking 2 1 ⟨⟨10, 20⟩, valid_10_20⟩ none 0))

theorem bookedOnce_never_double_booked :
    bookedOnce.store.getResource 1 = some ⟨1, none, none, 1, some 5, [⟨2, ⟨10, 20⟩, .booking none⟩]⟩ ∧
      ([⟨2, ⟨10, 20⟩, .booking none⟩] : List Interval).countP (fun i =>
        i.kind.live bookedOnce.clock && decide (i.span.start ≤ 22 ∧ 22 < i.span.end + 5)) ≤ 1 :=
  ⟨rfl, never_double_booked bookedOnce
    (.step _ (.step _ (.start 0 1000) trivial trivial) trivial trivial) 1
    ⟨1, none, none, 1, some 5, [⟨2, ⟨10, 20⟩, .booking none⟩]⟩ rfl 22⟩

end Engine

end Deltat
