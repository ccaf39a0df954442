import Deltat.BatchAdmission

/-! # The bound on the intervals of one resource

A single addition is refused on a resource that is full, and a commit swaps intervals. A
batch is refused there as well, but one check stands for all its members: a batch that finds
any room may bring more members than there is room for. Where no batch does, the bound holds
in every state.
-/

namespace Deltat

open Lib Lib.Outcome Limits Conflict Availability

/-! ## How long a list a write leaves -/

namespace ResourceState

variable {rs : ResourceState}

/-- The removals of independent changes are of distinct intervals. -/
theorem removals_nodup {changes : List Event} (apart : changes.Pairwise Event.Independent) :
    (changes.filterMap (·.removes)).Nodup := by
  apply List.Pairwise.filterMap (·.removes) _ apart
  intro a b independent x removed y removed' same
  subst same
  exact independent x (Event.mem_touches.mpr (.inl removed)) (Event.mem_touches.mpr (.inl removed'))

/-- Every independent change that removes an interval of the resource makes room for one. -/
theorem foldl_applySingle_length {changes : List Event} (apart : changes.Pairwise Event.Independent) (wf : rs.WellFormed)
    (accepts : ∀ ev ∈ changes, rs.Accepts ev)
    (there : ∀ ev ∈ changes, ∀ x, ev.removes = some x → x ∈ rs.intervals.map (·.id)) :
    (changes.foldl applySingle rs).intervals.length + (changes.filterMap (·.removes)).length ≤
      rs.intervals.length + (changes.filterMap (·.adds)).length := by
  have perm := (foldl_applySingle apart wf accepts).2
  let gone : Interval → Bool := fun i => decide (some i.id ∈ changes.map (·.removes))
  have covered : changes.filterMap (·.removes) ⊆ (rs.intervals.filter gone).map (·.id) := by
    intro x inside
    obtain ⟨ev, member, removed⟩ := List.mem_filterMap.mp inside
    obtain ⟨i, held, rfl⟩ := List.mem_map.mp (there ev member x removed)
    apply List.mem_map_of_mem
    apply List.mem_filter.mpr
    exact ⟨held, decide_eq_true (removed ▸ List.mem_map_of_mem member)⟩
  have fewer := ((removals_nodup apart).subperm covered).length_le
  have split : rs.intervals.length = (rs.intervals.filter gone).length +
      (rs.intervals.filter fun i => !gone i).length := List.length_eq_length_filter_add gone
  have kept : (rs.intervals.filter fun i => decide (some i.id ∉ changes.map (·.removes))) =
      rs.intervals.filter fun i => !gone i := by
    apply List.filter_congr
    intro i _
    exact decide_not
  rw [perm.length_eq, List.length_append, kept]
  rw [List.length_map] at fewer
  omega

end ResourceState

namespace Engine

variable {e e' : Engine} {r : Ulid}

/-- How many intervals a write adds to a resource. -/
def grows (records : List Event) (r : Ulid) : Nat := ((own records r).filterMap (·.adds)).length

/-- How many intervals a write takes from a resource. -/
def shrinks (records : List Event) (r : Ulid) : Nat := ((own records r).filterMap (·.removes)).length

/-- No resource has more intervals than the limit. -/
def WithinLimit (e : Engine) : Prop :=
  ∀ r rs, e.store.getResource r = some rs → rs.intervals.length ≤ maxIntervalsPerResource

/-- Every resource has room for what a write adds to it. -/
def HasRoom (e : Engine) (records : List Event) : Prop :=
  ∀ r rs, e.store.getResource r = some rs →
    rs.intervals.length + grows records r ≤ maxIntervalsPerResource + shrinks records r

theorem grows_single {ev : Event} {rid : Ulid} (routed : ev.resourceId? = some rid) (r : Ulid) :
    grows [ev] r = if rid = r then ev.adds.toList.length else 0 := by
  rw [grows, own_single routed]
  split
  · cases added : ev.adds <;> simp [added]
  · rfl

theorem shrinks_single {ev : Event} {rid : Ulid} (routed : ev.resourceId? = some rid) (r : Ulid) :
    shrinks [ev] r = if rid = r then ev.removes.toList.length else 0 := by
  rw [shrinks, own_single routed]
  split
  · cases removed : ev.removes <;> simp [removed]
  · rfl

/-- Every entry of a commit takes a hold for the booking it adds. -/
theorem commit_swaps (entries : List HoldCommit) (r : Ulid) :
    grows [.holdsCommitted entries] r = shrinks [.holdsCommitted entries] r := by
  have cons : ∀ (c : HoldCommit) (rest : List HoldCommit), own [.holdsCommitted (c :: rest)] r =
      own [.holdsCommitted [c]] r ++ own [.holdsCommitted rest] r := by
    intro c rest
    simp [own, Event.perResource]
  induction entries with
  | nil => rfl
  | cons c rest ih =>
      unfold grows shrinks at ih ⊢
      rw [cons, List.filterMap_append, List.filterMap_append, List.length_append, List.length_append, ih, own_commit]
      split <;> rfl

theorem hasRoom_of_swaps (within : e.WithinLimit) {records : List Event}
    (swaps : ∀ r, grows records r ≤ shrinks records r) : e.HasRoom records := by
  intro r rs present
  have bound := within r rs present
  have balance := swaps r
  omega

/-- A change that adds nothing, or replaces what it removes. -/
theorem hasRoom_swap (within : e.WithinLimit) {ev : Event} {rid : Ulid} (routed : ev.resourceId? = some rid)
    (swap : ev.adds.toList.length ≤ ev.removes.toList.length) : e.HasRoom [ev] := by
  apply hasRoom_of_swaps within
  intro r
  rw [grows_single routed, shrinks_single routed]
  split
  · exact swap
  · exact Nat.le_refl 0

/-- One addition to a resource that is not full. -/
theorem hasRoom_addition (within : e.WithinLimit) {ev : Event} {rid : Ulid} (routed : ev.resourceId? = some rid)
    {guard : ResourceState} (present : e.store.getResource rid = some guard)
    (room : guard.intervals.length < maxIntervalsPerResource) : e.HasRoom [ev] := by
  intro r rs found
  have bound := within r rs found
  rw [grows_single routed, shrinks_single routed]
  split
  · next same =>
      subst same
      obtain rfl := Option.some.inj (present.symm.trans found)
      have atMostOne : ev.adds.toList.length ≤ 1 := by cases ev.adds <;> simp
      omega
  · omega

theorem grows_batch {α : Type} {members : List α} {mk : α → Event} {rid : α → Ulid}
    (routed : ∀ m, (mk m).resourceId? = some (rid m)) (adds : ∀ m, (mk m).adds.isSome) (r : Ulid) :
    grows (members.map mk) r = (members.map rid).count r := by
  have onResource := @own_batch α members mk (fun m => (r, rid m, ⟨0, 0⟩)) routed r
  rw [grows, onResource, List.filterMap_map, List.count_eq_countP, List.countP_map]
  have every : ∀ xs : List α, (xs.filterMap fun m => (mk m).adds).length = xs.length := by
    intro xs
    induction xs with
    | nil => rfl
    | cons m rest ih =>
        obtain ⟨i, added⟩ := Option.isSome_iff_exists.mp (adds m)
        simp [added, ih]
  rw [Function.comp_def, every, ← List.countP_eq_length_filter]
  apply List.countP_congr
  intro m _
  simp only [decide_eq_true_eq, Function.comp_apply, beq_iff_eq]

/-- A write that every resource has room for keeps the bound. -/
theorem Wrote.withinLimit (h : e.Healthy) (within : e.WithinLimit) {records : List Event} (room : e.HasRoom records)
    (admits : e.Admits records) (wrote : e.Wrote e' records) : e'.WithinLimit := by
  intro r rs' after
  obtain ⟨id, parentId, name, capacity, bufferAfter, rfl, _⟩ | ⟨id, _, rfl, _⟩ | changes := admits.kinds
  · rw [wrote.table, List.foldl_cons, List.foldl_nil] at after
    simp only [Event.stepOn] at after
    split at after
    · cases after
      exact Nat.zero_le _
    · exact within r rs' after
  · rw [wrote.table, List.foldl_cons, List.foldl_nil] at after
    simp only [Event.stepOn] at after
    split at after
    · cases after
    · exact within r rs' after
  · obtain ⟨rs, present, rfl, accepts, apart⟩ := wrote.changed h admits changes after
    have wf := h.consistent.wellFormed r rs present
    have all := admits.allApply h changes
    have there : ∀ ev ∈ own records r, ∀ x, ev.removes = some x → x ∈ rs.intervals.map (·.id) := by
      intro ev inside x removed
      obtain ⟨member, routed⟩ := List.mem_filter.mp inside
      obtain ⟨q, applies⟩ := all.applies ev member
      rw [decide_eq_true_eq, applies.routed] at routed
      obtain rfl := Option.some.inj routed
      obtain ⟨rs', found, held⟩ := (h.consistent.entities x q).mp (applies.removes x removed)
      obtain rfl := Option.some.inj (present.symm.trans found)
      exact held
    have length := ResourceState.foldl_applySingle_length apart wf accepts there
    have bound := room r rs present
    unfold grows shrinks at bound
    omega

/-! ## The checks -/

theorem checkIntervalLimit_ok {guard : ResourceState} :
    checkIntervalLimit guard = .ok () ↔ guard.intervals.length < maxIntervalsPerResource := by
  unfold checkIntervalLimit
  split
  · next full => simp [Nat.not_lt.mpr full]
  · next room => simp [Nat.lt_of_not_le room]

theorem checkAddRule_room {id rid : Ulid} {span : Span} {blocking : Bool}
    (passed : e.checkAddRule id rid span blocking = .ok ()) :
    ∃ guard, e.store.getResource rid = some guard ∧ guard.intervals.length < maxIntervalsPerResource := by
  obtain ⟨_, _, passed⟩ := bind_ok.mp passed
  obtain ⟨guard, present, passed⟩ := bind_ok.mp passed
  obtain ⟨_, _, passed⟩ := bind_ok.mp passed
  obtain ⟨_, _, room⟩ := bind_ok.mp passed
  exact ⟨guard, resource_ok.mp present, checkIntervalLimit_ok.mp room⟩

theorem checkHold_room {id rid : Ulid} {span : Span} {requested expiresAt : Ms} {limit : Nat}
    (passed : e.checkHold id rid span requested limit = .ok expiresAt) :
    ∃ guard, e.store.getResource rid = some guard ∧ guard.intervals.length < maxIntervalsPerResource := by
  obtain ⟨_, _, passed⟩ := bind_ok.mp passed
  obtain ⟨_, admitted, _⟩ := bind_ok.mp passed
  obtain ⟨_, guard, present, room, _⟩ := admitOne_ok_iff.mp admitted
  exact ⟨guard, present, room⟩

theorem checkBooking_room {id rid : Ulid} {span : Span} {label : Option String} {limit : Nat}
    (passed : e.checkBooking id rid span label limit = .ok ()) :
    ∃ guard, e.store.getResource rid = some guard ∧ guard.intervals.length < maxIntervalsPerResource := by
  obtain ⟨_, _, admitted⟩ := bind_ok.mp passed
  obtain ⟨_, guard, present, room, _⟩ := admitOne_ok_iff.mp admitted
  exact ⟨guard, present, room⟩

/-- The one check of a batch: none of its resources is full. -/
theorem admitBatch_room {members : List (Ulid × Ulid × Span)} (passed : e.admitBatch members = .ok ()) :
    ∀ m ∈ members, ∃ guard, e.store.getResource m.2.1 = some guard ∧
      guard.intervals.length < maxIntervalsPerResource := by
  intro m member
  obtain ⟨_, _, passed⟩ := bind_ok.mp passed
  obtain ⟨_, _, passed⟩ := bind_ok.mp passed
  obtain ⟨_, _, passed⟩ := bind_ok.mp passed
  obtain ⟨_, _, passed⟩ := bind_ok.mp passed
  obtain ⟨locked, lock, passed⟩ := bind_ok.mp passed
  obtain ⟨_, below, _⟩ := bind_ok.mp passed
  have listed : m.2.1 ∈ ascending (ascending (members.map (·.2.1))) :=
    mem_ascending.mpr (mem_ascending.mpr (List.mem_map_of_mem member))
  obtain ⟨guard, isLocked, present⟩ := mapM_ok_mem lock listed
  refine ⟨guard, resource_ok.mp present, Nat.lt_of_not_le fun full => rejectIf_ok.mp below ?_⟩
  exact List.any_eq_true.mpr ⟨guard, isLocked, decide_eq_true full⟩

/-- A batch on these resources that finds all of them below the limit fits on each. -/
def BatchFits (e : Engine) (rids : List Ulid) : Prop :=
  (∀ r ∈ rids, ∀ rs, e.store.getResource r = some rs → rs.intervals.length < maxIntervalsPerResource) →
    ∀ r ∈ rids, ∀ rs, e.store.getResource r = some rs → rs.intervals.length + rids.count r ≤ maxIntervalsPerResource

theorem hasRoom_batch (within : e.WithinLimit) {α : Type} {members : List α} {mk : α → Event} {toMember : α → Ulid × Ulid × Span}
    (routed : ∀ m, (mk m).resourceId? = some (toMember m).2.1) (adds : ∀ m, (mk m).adds.isSome)
    (fits : e.BatchFits (members.map fun m => (toMember m).2.1))
    (passed : e.admitBatch (members.map toMember) = .ok ()) : e.HasRoom (members.map mk) := by
  have below : ∀ r ∈ members.map fun m => (toMember m).2.1, ∀ rs, e.store.getResource r = some rs →
      rs.intervals.length < maxIntervalsPerResource := by
    intro r listed rs found
    obtain ⟨m, member, rfl⟩ := List.mem_map.mp listed
    obtain ⟨guard, present, room⟩ := admitBatch_room passed (toMember m) (List.mem_map_of_mem member)
    obtain rfl := Option.some.inj (present.symm.trans found)
    exact room
  intro r rs present
  rw [grows_batch routed adds]
  by_cases listed : r ∈ members.map fun m => (toMember m).2.1
  · have bound := fits below r listed rs present
    omega
  · have bound := within r rs present
    rw [List.count_eq_zero_of_not_mem listed]
    omega

end Engine

/-- The resources that a batch of allocations names, once for each member. -/
def Op.batchOn : Op → List Ulid
  | batchPlaceHolds holds => holds.map (·.2.1)
  | batchConfirmBookings bookings => bookings.map (·.2.1)
  | _ => []

/-- The steps that keep the bound: no batch brings a resource more members than it has room for. -/
def Move.FitsLimit (e : Engine) : Move → Prop
  | .op o => e.BatchFits o.batchOn
  | _ => True

namespace Engine

variable {e e' : Engine}

theorem Effect.withinLimit {ε : Type} {P : List Event → Prop} (h : e.Healthy) (within : e.WithinLimit) {result : Except ε Unit}
    (effect : Effect P e result e') (room : ∀ records, P records → e.HasRoom records) : e'.WithinLimit := by
  cases result with
  | error error =>
      cases effect
      exact within
  | ok u =>
      rcases effect with rfl | ⟨records, given, admits, wrote⟩
      · exact within
      · exact wrote.withinLimit h within (room records given) admits

section Operations

variable (h : e.Healthy) (within : e.WithinLimit)
include h within

theorem addRule_withinLimit (x rid : Ulid) {span : Span} (proper : span.Valid) (blocking : Bool) :
    Ends (addRule x rid span blocking) e fun _ e' => e'.Healthy ∧ e'.WithinLimit := by
  have effect : Ends (addRule x rid span blocking) e (Effect e.HasRoom e) := by
    refine Ends.get (effect_check fun _ passed => effect_single h rfl rfl (.addRule proper passed) ?_)
    obtain ⟨guard, present, room⟩ := checkAddRule_room passed
    exact hasRoom_addition within rfl present room
  apply Ends.mono effect
  intro result e' effect
  exact ⟨(Effect.run h effect fun _ => id).1, effect.withinLimit h within fun _ => id⟩

theorem placeHold_withinLimit (id rid : Ulid) {span : Span} (proper : span.Valid) (expiresAt : Ms) (limit : Nat) :
    Ends (placeHoldOffering id rid span expiresAt limit) e (Effect e.HasRoom e) := by
  refine Ends.get (effect_check fun clamped passed => Ends.step rfl (ends_adapt
    (effect_early_one h rfl rfl (.placeHold proper passed) ?_ rfl rfl rfl rfl rfl)))
  obtain ⟨guard, present, room⟩ := checkHold_room passed
  exact hasRoom_addition within rfl present room

theorem confirmBooking_withinLimit (id rid : Ulid) {span : Span} (proper : span.Valid) (label : Option String)
    (limit : Nat) : Ends (confirmBookingOffering id rid span label limit) e (Effect e.HasRoom e) := by
  refine Ends.get (effect_check fun _ passed => ends_adapt
    (effect_early_one h rfl rfl (.confirmBooking proper passed) ?_ rfl rfl rfl rfl rfl))
  obtain ⟨guard, present, room⟩ := checkBooking_room passed
  exact hasRoom_addition within rfl present room

theorem batchConfirmBookings_withinLimit {bookings : List (Ulid × Ulid × Span × Option String)}
    (proper : ∀ b ∈ bookings, b.2.2.1.Valid) (fits : e.BatchFits (bookings.map (·.2.1))) :
    Ends (batchConfirmBookings bookings) e (Effect e.HasRoom e) := by
  unfold batchConfirmBookings
  split
  · exact .inl rfl
  · refine Ends.get (effect_check fun _ passed => ?_)
    obtain ⟨_, labels, admitted⟩ := bind_ok.mp passed
    have labels := forM_ok.mp labels
    have admits := Admits.confirmBookings (fun b member => ⟨proper b member, labels b member⟩) (admitBatch_ok admitted)
    have room : e.HasRoom (bookings.map fun b => .bookingConfirmed b.1 b.2.1 b.2.2.1 b.2.2.2) :=
      hasRoom_batch within (fun _ => rfl) (fun _ => rfl) fits admitted
    exact effect_batch h (fun _ => rfl) (fun _ => rfl) admits room rfl rfl rfl rfl rfl

theorem batchPlaceHolds_withinLimit {holds : List (Ulid × Ulid × Span × Ms)}
    (proper : ∀ b ∈ holds, b.2.2.1.Valid) (fits : e.BatchFits (holds.map (·.2.1))) :
    Ends (batchPlaceHolds holds) e (Effect e.HasRoom e) := by
  refine Ends.get (effect_check fun clamped expiries => ?_)
  have bounds := holdExpiries_ok expiries
  have sameResources : clamped.map (·.2.1) = holds.map (·.2.1) := by
    have related := mapM_ok.mp expiries
    clear expiries bounds proper fits
    induction related with
    | nil => rfl
    | cons first _ ih =>
        obtain ⟨_, _, same⟩ := bind_ok.mp first
        cases same
        rw [List.map_cons, List.map_cons, ih]
  split
  · exact .inl rfl
  · refine Ends.get (effect_check fun _ admitted => Ends.step rfl ?_)
    have valid : ∀ b ∈ clamped, b.2.2.1.Valid := by
      intro b member
      obtain ⟨⟨g, given, same⟩, _⟩ := bounds b member
      exact same ▸ proper g given
    have admits := Admits.placeHolds (fun b member => ⟨valid b member, (bounds b member).2⟩) (admitBatch_ok admitted)
    have room : e.HasRoom (clamped.map fun h => .holdPlaced h.1 h.2.1 h.2.2.1 h.2.2.2) :=
      hasRoom_batch within (fun _ => rfl) (fun _ => rfl) (sameResources ▸ fits) admitted
    exact effect_batch h (fun _ => rfl) (fun _ => rfl) admits room rfl rfl rfl rfl rfl

/-- An operation whose batch, if it is one, fits keeps the bound. -/
theorem run_withinLimit (o : Op) (fits : e.BatchFits o.batchOn) : Ends o.run e fun _ e' => e'.WithinLimit := by
  have swap : ∀ {x : EngineM Unit} {P : List Event → Prop}, Ends x e (Effect P e) →
      (∀ records, P records → ∃ ev rid, records = [ev] ∧ ev.resourceId? = some rid ∧
        ev.adds.toList.length ≤ ev.removes.toList.length) → Ends x e fun _ e' => e'.WithinLimit := by
    intro x P effect single
    apply Ends.mono effect
    intro result e' effect
    apply effect.withinLimit h within
    intro records given
    obtain ⟨ev, rid, rfl, routed, swap⟩ := single records given
    exact hasRoom_swap within routed swap
  have balanced : ∀ {x : EngineM Unit} {P : List Event → Prop}, Ends x e (Effect P e) →
      (∀ records, P records → ∀ r, grows records r = shrinks records r) → Ends x e fun _ e' => e'.WithinLimit := by
    intro x P effect swaps
    apply Ends.mono effect
    intro result e' effect
    apply effect.withinLimit h within
    intro records given
    exact hasRoom_of_swaps within fun r => (swaps records given r).le
  have whole : ∀ {x : EngineM Unit}, Ends x e (Effect e.HasRoom e) → Ends x e fun _ e' => e'.WithinLimit :=
    fun effect => Ends.mono effect fun _ _ effect => effect.withinLimit h within fun _ => id
  cases o with
  | createResource => exact balanced (effect_createResource h ..) fun _ same r => by rw [same]; rfl
  | batchCreateResources resources =>
      refine Ends.check (fun _ _ => within) fun _ _ => ?_
      refine Ends.mono (Ends.keeps (I := fun e => e.Healthy ∧ e.WithinLimit) ?_ e ⟨h, within⟩) fun _ _ both => both.2
      intro r _ e both
      apply Ends.mono (effect_createResource both.1 ..)
      intro result e' effect
      refine ⟨(Effect.run both.1 effect fun _ => id).1, effect.withinLimit both.1 both.2 fun _ same => ?_⟩
      exact hasRoom_of_swaps both.2 fun r => by rw [same]; rfl
  | deleteResource => exact balanced (effect_deleteResource h ..) fun _ same r => by rw [same]; rfl
  | updateResource => exact swap (effect_updateResource h ..) fun _ same => ⟨_, _, same, rfl, Nat.le_refl 0⟩
  | addRule x rid span =>
      exact Ends.mono (addRule_withinLimit h within x rid span.2 _) fun _ _ both => both.2
  | batchAddRules rules =>
      refine Ends.check (fun _ _ => within) fun _ _ => ?_
      refine Ends.mono (Ends.keeps (I := fun e => e.Healthy ∧ e.WithinLimit) ?_ e ⟨h, within⟩) fun _ _ both => both.2
      intro r inside e both
      obtain ⟨given, _, rfl⟩ := List.mem_map.mp inside
      exact addRule_withinLimit both.1 both.2 _ _ given.2.2.1.2 _
  | updateRule x span => exact swap (effect_updateRule h x span.2 _) fun _ ⟨rid, same⟩ => ⟨_, rid, same, rfl, Nat.le_refl 1⟩
  | removeRule => exact swap (effect_removeRule h _) fun _ ⟨rid, same⟩ => ⟨_, rid, same, rfl, Nat.zero_le 1⟩
  | placeHold x rid span => exact whole (ends_adapt (placeHold_withinLimit h within x rid span.2 _ _))
  | batchPlaceHolds holds =>
      apply whole
      apply batchPlaceHolds_withinLimit h within
      · intro b inside
        obtain ⟨given, _, rfl⟩ := List.mem_map.mp inside
        exact given.2.2.1.2
      · rw [List.map_map]
        exact fits
  | releaseHold => exact swap (effect_removeHold h _) fun _ ⟨rid, same⟩ => ⟨_, rid, same, rfl, Nat.zero_le 1⟩
  | expireHold => exact swap (effect_removeHold h _) fun _ ⟨rid, same⟩ => ⟨_, rid, same, rfl, Nat.zero_le 1⟩
  | commitHolds =>
      exact balanced (ends_adapt (effect_commitHolds h ..)) fun _ ⟨_, same, _⟩ r => by rw [same]; exact commit_swaps _ r
  | confirmBooking x rid span => exact whole (ends_adapt (confirmBooking_withinLimit h within x rid span.2 _ _))
  | batchConfirmBookings bookings =>
      apply whole
      apply batchConfirmBookings_withinLimit h within
      · intro b inside
        obtain ⟨given, _, rfl⟩ := List.mem_map.mp inside
        exact given.2.2.1.2
      · rw [List.map_map]
        exact fits
  | cancelBooking => exact swap (effect_cancelBooking h _) fun _ ⟨rid, same⟩ => ⟨_, rid, same, rfl, Nat.zero_le 1⟩

end Operations

theorem next_withinLimit (h : e.Healthy) (within : e.WithinLimit) {move : Move} (fits : move.FitsLimit e) :
    (e.next move).WithinLimit := by
  cases move with
  | tick ms => exact within
  | op o => exact run_withinLimit h within o fits
  | gc now retentionMs =>
      intro r rs found
      change (e.gcPastIntervals now retentionMs).store.getResource r = some rs at found
      rw [gc_getResource h] at found
      obtain ⟨before, present, rfl⟩ := Option.map_eq_some_iff.mp found
      exact (List.length_filter_le _ _).trans (within r before present)
  | compact order =>
      change (e.compactWal order).WithinLimit
      rw [compactWal_eq h.running]
      exact within

/-- In every run whose batches find room for all their members on a resource, or find it full,
    no resource ever has more intervals than the limit. -/
theorem intervals_within_limit (reached : Reachable (fun e move => move.FitsLimit e) e) {r : Ulid} {rs : ResourceState}
    (present : e.store.getResource r = some rs) : rs.intervals.length ≤ maxIntervalsPerResource := by
  have both : e.Healthy ∧ e.WithinLimit :=
    reached.invariant (I := fun e => e.Healthy ∧ e.WithinLimit) (fun clock ttl => ⟨start_healthy clock ttl, by rintro r rs ⟨⟩⟩)
      fun e move both _ fits => ⟨next_healthy both.1 move, next_withinLimit both.1 both.2 fits⟩
  exact both.2 r rs present

/-! ## A batch that overshoots -/

theorem valid_0_10 : Span.Valid ⟨0, 10⟩ := by decide

theorem valid_20_30 : Span.Valid ⟨20, 30⟩ := by decide

theorem valid_40_50 : Span.Valid ⟨40, 50⟩ := by decide

/-- A run that adds so many blocking rules over one span of a resource. -/
def crowded : Nat → Engine
  | 0 => (start 0 1000).next (.op (.createResource 0 none none 1 none))
  | n + 1 => (crowded n).next (.op (.addRule (Fin.ofNat _ (n + 1)) 0 ⟨⟨0, 10⟩, valid_0_10⟩ true))

theorem crowded_reachable (n : Nat) : Reachable (fun _ _ => True) (crowded n) := by
  induction n with
  | zero => exact .step _ (.start 0 1000) trivial trivial
  | succ n ih => exact .step _ ih trivial trivial

/-- One resource with so many blocking rules and nothing else. -/
structure Crowd (e : Engine) (n : Nat) (rs : ResourceState) : Prop where
  healthy : e.Healthy
  only : ∀ r, e.store.getResource r = if r = 0 then some rs else none
  root : rs.parentId = none
  single : rs.capacity = 1
  unbuffered : rs.bufferAfter = none
  count : rs.intervals.length = n
  rules : ∀ i ∈ rs.intervals, i.kind = .blocking ∧ i.span = ⟨0, 10⟩ ∧ i.id.val ≤ n

variable {rs : ResourceState} {n : Nat}

theorem Crowd.present (crowd : e.Crowd n rs) : e.store.getResource 0 = some rs := by rw [crowd.only, if_pos rfl]

theorem Crowd.unused (crowd : e.Crowd n rs) {x : Ulid} (beyond : n < x.val) : e.store.getResourceForEntity x = none := by
  apply Option.eq_none_iff_forall_ne_some.mpr
  intro r located
  obtain ⟨rs', found, held⟩ := (crowd.healthy.consistent.entities x r).mp located
  rw [crowd.only] at found
  split at found
  · cases found
    obtain ⟨i, inside, rfl⟩ := List.mem_map.mp held
    exact absurd (crowd.rules i inside).2.2 (Nat.not_le.mpr beyond)
  · cases found

theorem Crowd.addRule (crowd : e.Crowd n rs) (room : n < maxIntervalsPerResource) :
    ∃ rs', (e.next (.op (.addRule (Fin.ofNat _ (n + 1)) 0 ⟨⟨0, 10⟩, valid_0_10⟩ true))).Crowd (n + 1) rs' := by
  have h := crowd.healthy
  have value : (Fin.ofNat (2 ^ 128) (n + 1)).val = n + 1 := by
    simp only [Fin.val_ofNat]
    apply Nat.mod_eq_of_lt
    simp only [maxIntervalsPerResource] at room
    omega
  have passed : e.checkAddRule (Fin.ofNat _ (n + 1)) 0 ⟨0, 10⟩ true = .ok () := by
    refine bind_ok.mpr ⟨(), rfl, bind_ok.mpr ⟨rs, resource_ok.mpr crowd.present, bind_ok.mpr ⟨(), rfl, bind_ok.mpr ⟨(), ?_, ?_⟩⟩⟩⟩
    · exact rejectReusedId_ok.mpr (crowd.unused (by omega))
    · exact checkIntervalLimit_ok.mpr (by rw [crowd.count]; exact room)
  have ran : exec (Engine.addRule (Fin.ofNat _ (n + 1)) 0 ⟨0, 10⟩ true) e = (.ok (), { e with
      store := e.store.replayOn 0 (.ruleAdded (Fin.ofNat _ (n + 1)) 0 ⟨0, 10⟩ true)
      log := e.log ++ [.ruleAdded (Fin.ofNat _ (n + 1)) 0 ⟨0, 10⟩ true] }) := by
    unfold Engine.addRule
    rw [exec_bind_ok (exec_get e), passed, exec_bind_ok (exec_check _ _), exec_persistAndApply h.running h.noFault]
  have wrote := wrote_single h rfl (applies_ruleAdded valid_0_10 passed)
  refine ⟨rs.insertInterval ⟨Fin.ofNat _ (n + 1), ⟨0, 10⟩, .blocking⟩, ?_⟩
  change (exec (Engine.addRule (Fin.ofNat _ (n + 1)) 0 ⟨0, 10⟩ true) e).2.Crowd _ _
  rw [ran]
  have perm : (rs.insertInterval ⟨Fin.ofNat _ (n + 1), ⟨0, 10⟩, .blocking⟩).intervals.Perm
      (⟨Fin.ofNat _ (n + 1), ⟨0, 10⟩, .blocking⟩ :: rs.intervals) := ResourceState.insertInterval_perm _
  refine ⟨wrote.healthy, fun r => ?_, crowd.root, crowd.single, crowd.unbuffered, ?_, fun i inside => ?_⟩
  · rw [wrote.table, List.foldl_cons, List.foldl_nil, Event.stepOn_change rfl, crowd.only]
    by_cases zero : r = 0
    · rw [zero, if_pos rfl, if_pos rfl]
      rfl
    · rw [if_neg zero, if_neg zero]
      rfl
  · rw [perm.length_eq, List.length_cons, crowd.count]
  · rcases List.mem_cons.mp (perm.mem_iff.mp inside) with rfl | before
    · exact ⟨rfl, rfl, value.le⟩
    · obtain ⟨kind, span, bound⟩ := crowd.rules i before
      exact ⟨kind, span, by omega⟩

theorem crowded_crowd (n : Nat) (room : n ≤ maxIntervalsPerResource) : ∃ rs, (crowded n).Crowd n rs := by
  induction n with
  | zero =>
      refine ⟨.new 0 none none 1 none, (crowded_reachable 0).healthy, fun r => ?_, rfl, rfl, rfl, rfl, fun i inside => ?_⟩
      · have created : (crowded 0).store = InMemoryStore.empty.create 0 none none 1 none := rfl
        rw [created, InMemoryStore.create_getResource]
        rfl
      · cases inside
  | succ n ih =>
      obtain ⟨rs, crowd⟩ := ih (Nat.le_of_succ_le room)
      exact crowd.addRule room

/-- Two bookings behind the rules. -/
def twoBookings : List (Ulid × Ulid × Span × Option String) := [(200001, 0, ⟨20, 30⟩, none), (200002, 0, ⟨40, 50⟩, none)]

/-- The rules leave a span behind them open and free. -/
theorem Crowd.admits (crowd : e.Crowd n rs) {span : Span} (admitted : span.Admitted) (behind : 10 ≤ span.start)
    (whole : (subtractIntervals [span] (assembleOpenWindows [span] [] [])).isEmpty = true) :
    checkRulesAdmit rs span [] [] false = .ok () ∧ checkNoConflict rs span e.clock = .ok () := by
  have wf := crowd.healthy.consistent.wellFormed 0 rs crowd.present
  have nothing : rs.overlapping span = [] := by
    rw [ResourceState.overlapping_eq wf.sorted, List.filter_eq_nil_iff]
    intro i inside
    rw [(crowd.rules i inside).2.1]
    simp only [Bool.and_eq_true, decide_eq_true_eq, not_and]
    lia
  have unscheduled : rs.hasNonBlockingRule = false := by
    rw [ResourceState.hasNonBlockingRule, List.any_eq_false]
    intro i inside
    rw [(crowd.rules i inside).1]
    decide
  constructor
  · simp only [checkRulesAdmit, ownRuleSpans, nothing, unscheduled, List.filter_nil, List.map_nil, Bool.false_eq_true,
      if_false, whole, if_true]
  · unfold checkNoConflict
    rw [checkNoConflictExcluding_ok wf admitted]
    intro t _
    have quiet : rs.othersAt e.clock none t = 0 := by
      rw [ResourceState.othersAt_none, ResourceState.liveAt, List.countP_eq_zero]
      intro i inside
      rw [(crowd.rules i inside).1]
      simp [IntervalKind.live]
    rw [quiet, crowd.single]
    decide

theorem Crowd.checkBookings (crowd : e.Crowd n rs) (room : n < maxIntervalsPerResource) :
    e.checkBookings twoBookings = .ok () := by
  have root : e.store.getParent 0 = none := by
    rw [crowd.healthy.consistent.parents, crowd.present]
    exact crowd.root
  have collected : e.batchRules (twoBookings.map fun b => (b.1, b.2.1, b.2.2.1)) 0 = .ok ⟨[], [], false⟩ := by
    change e.store.collectInheritedRules 0 (e.store.getParent 0) ⟨20, 50⟩ = _
    rw [root, InMemoryStore.collectInheritedRules, InMemoryStore.ancestorChain_none]
    rfl
  have first := crowd.admits (validateSpan_admits valid_20_30 rfl) (by decide) (by decide)
  have second := crowd.admits (validateSpan_admits valid_40_50 rfl) (by decide) (by decide)
  have buffer : rs.buffer = 0 := by rw [ResourceState.buffer, crowd.unbuffered]; rfl
  have on : e.AdmitsOn (twoBookings.map fun b => (b.1, b.2.1, b.2.2.1)) 0 := by
    refine ⟨rs, _, crowd.present, by rw [crowd.count]; exact room, collected, admitOn_ok_iff.mpr ⟨?_, fun _ => ?_⟩⟩
    · exact List.forall_mem_cons.mpr ⟨first, List.forall_mem_singleton.mpr second⟩
    · rw [if_pos (by rw [crowd.single]; decide), buffer]
      decide
  refine bind_ok.mpr ⟨(), forM_ok.mpr ?_, admitBatch_ok_iff.mpr ⟨by decide, ?_, by decide, ?_, ?_⟩⟩
  · exact List.forall_mem_cons.mpr ⟨rfl, List.forall_mem_singleton.mpr rfl⟩
  · exact List.forall_mem_cons.mpr ⟨rfl, List.forall_mem_singleton.mpr rfl⟩
  · refine List.forall_mem_cons.mpr ⟨crowd.unused ?_, List.forall_mem_singleton.mpr (crowd.unused ?_)⟩
    · exact room.trans (by decide)
    · exact room.trans (by decide)
  · exact List.forall_mem_cons.mpr ⟨on, List.forall_mem_singleton.mpr on⟩

theorem batchConfirmBookings_wrote (h : e.Healthy) {bookings : List (Ulid × Ulid × Span × Option String)}
    (some : bookings ≠ []) (proper : ∀ b ∈ bookings, b.2.2.1.Valid) (passed : e.checkBookings bookings = .ok ()) :
    ∃ e', exec (batchConfirmBookings bookings) e = (.ok (), e') ∧
      e.Wrote e' (bookings.map fun b => .bookingConfirmed b.1 b.2.1 b.2.2.1 b.2.2.2) := by
  obtain ⟨_, labels, admitted⟩ := bind_ok.mp passed
  have labels := forM_ok.mp labels
  have admits := Admits.confirmBookings (fun b member => ⟨proper b member, labels b member⟩) (admitBatch_ok admitted)
  have changes : ∀ ev ∈ bookings.map fun b => Event.bookingConfirmed b.1 b.2.1 b.2.2.1 b.2.2.2, ev.isChange :=
    List.forall_mem_map.mpr fun _ _ => rfl
  have routed : ∀ ev ∈ (bookings.map fun b => Event.bookingConfirmed b.1 b.2.1 b.2.2.1 b.2.2.2).flatMap Event.perResource,
      ∃ r ∈ ascending (bookings.map (·.2.1)), ev.resourceId? = Option.some r := by
    rw [perResource_batch fun _ => rfl]
    exact List.forall_mem_map.mpr fun b member => ⟨b.2.1, mem_ascending.mpr (List.mem_map_of_mem member), rfl⟩
  have ran : exec (batchConfirmBookings bookings) e = exec (persistEarly (ascending (bookings.map (·.2.1)))
      (bookings.map fun b => .bookingConfirmed b.1 b.2.1 b.2.2.1 b.2.2.2)) e := by
    unfold batchConfirmBookings
    rw [if_neg (by rwa [List.isEmpty_iff]), exec_bind_ok (exec_get e), passed, exec_bind_ok (exec_check _ _)]
  rw [ran, exec_persistEarly h.running h.noFault]
  exact ⟨_, rfl, wrote_early h (ascending_nodup _) changes routed (admits.allApply h changes) rfl rfl rfl rfl rfl⟩

def bookTwo : Op := .batchConfirmBookings
  [(200001, 0, ⟨⟨20, 30⟩, valid_20_30⟩, none), (200002, 0, ⟨⟨40, 50⟩, valid_40_50⟩, none)]

theorem Crowd.bookTwo (crowd : e.Crowd n rs) (room : n < maxIntervalsPerResource) :
    ∃ rs', (e.next (.op Engine.bookTwo)).store.getResource 0 = some rs' ∧ rs'.intervals.length = n + 2 := by
  obtain ⟨e', ran, wrote⟩ := batchConfirmBookings_wrote crowd.healthy (by decide) (by decide) (crowd.checkBookings room)
  have after : e.next (.op Engine.bookTwo) = e' := congrArg Prod.snd ran
  rw [after, wrote.table, Event.foldl_stepOn 0 (by decide), crowd.present]
  refine ⟨_, rfl, ?_⟩
  change ((rs.insertInterval _).insertInterval _).intervals.length = _
  rw [(ResourceState.insertInterval_perm _).length_eq, List.length_cons,
    (ResourceState.insertInterval_perm _).length_eq, List.length_cons, crowd.count]

/-- A batch of two bookings finds a resource one interval below the limit, and leaves it one above. -/
theorem bookTwo_above_limit : ∃ e, Reachable (fun _ _ => True) e ∧ ∃ rs, e.store.getResource 0 = some rs ∧
    rs.intervals.length = maxIntervalsPerResource + 1 := by
  obtain ⟨rs, crowd⟩ := crowded_crowd (maxIntervalsPerResource - 1) (Nat.sub_le _ _)
  obtain ⟨rs', present, length⟩ := crowd.bookTwo (by decide)
  exact ⟨(crowded (maxIntervalsPerResource - 1)).next (.op bookTwo),
    .step (.op bookTwo) (crowded_reachable _) trivial trivial, rs', present, length⟩

theorem crowded_fits (n : Nat) : Reachable (fun e move => move.FitsLimit e) (crowded n) := by
  induction n with
  | zero => exact .step _ (.start 0 1000) trivial fun _ r inside => by cases inside
  | succ n ih => exact .step _ ih trivial fun _ r inside => by cases inside

/-- The same batch finds room on a resource with three rules. -/
theorem bookTwo_within_limit : ∃ rs, ((crowded 3).next (.op bookTwo)).store.getResource 0 = some rs ∧
    rs.intervals.length ≤ maxIntervalsPerResource := by
  obtain ⟨rs, crowd⟩ := crowded_crowd 3 (by decide)
  obtain ⟨rs', present, _⟩ := crowd.bookTwo (by decide)
  have fits : (Move.op bookTwo).FitsLimit (crowded 3) := by
    intro _ r inside found there
    rw [crowd.only] at there
    split at there
    · cases there
      have atMostTwo : bookTwo.batchOn.count r ≤ 2 := List.count_le_length
      rw [crowd.count]
      simp only [maxIntervalsPerResource]
      omega
    · cases there
  exact ⟨rs', present, intervals_within_limit (.step (.op bookTwo) (crowded_fits 3) trivial fits) present⟩

end Engine

end Deltat
