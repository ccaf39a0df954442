import Deltat.ReplayRebuilds

/-! # What a crash leaves of a batch

A batch booking is written as one record for each booking, and a crash keeps some of the
records. Collection drops intervals without a record, so the replayed state may hold more
than the live one: the batch is all or nothing only where replay already shows all of it.
-/

namespace Deltat

open Lib Lib.Outcome Bincode Limits Conflict

/-! ## Replayed intervals -/

namespace InMemoryStore

/-- The intervals of a resource, none if it does not exist. -/
def intervalsOn (s : InMemoryStore) (r : Ulid) : List Interval := ((s.getResource r).map (·.intervals)).getD []

theorem intervalsOn_some {s : InMemoryStore} {r : Ulid} {rs : ResourceState} (present : s.getResource r = some rs) :
    s.intervalsOn r = rs.intervals := by
  simp only [intervalsOn, present, Option.map_some, Option.getD_some]

theorem rebuilt_intervalsOn (events : List Event) (order : List Ulid) (r : Ulid) :
    (rebuilt events order).intervalsOn r = (replayed events).intervalsOn r := by
  unfold rebuilt
  generalize replayed events = s
  induction order generalizing s with
  | nil => rfl
  | cons id rest ih =>
      rw [List.foldl_cons, ih]
      simp only [intervalsOn, detachOrphan_intervals]

end InMemoryStore

/-! ## What the replayed state has of the live one -/

namespace Engine

variable {e e' : Engine}

/-- The replayed log has every live resource with its intervals, and no other resource. -/
def Covered (e : Engine) : Prop := ∀ r, Option.Rel (fun rs live => live.intervals ⊆ rs.intervals)
  ((InMemoryStore.replayed e.log).getResource r) (e.store.getResource r)

theorem covered_applySingle {rs live : ResourceState} (nodup : (live.intervals.map (·.id)).Nodup)
    (covered : live.intervals ⊆ rs.intervals) (ev : Event) :
    (live.applySingle ev).intervals ⊆ (rs.applySingle ev).intervals := by
  intro i inside
  rw [ResourceState.applySingle_eq, ResourceState.setFields_intervals, (ResourceState.put_perm _).mem_iff,
    List.mem_append]
  rcases List.mem_append.mp ((ResourceState.applySingle_perm nodup ev).mem_iff.mp inside) with added | kept
  · exact .inl added
  · obtain ⟨member, stays⟩ := List.mem_filter.mp kept
    refine .inr ?_
    cases removed : ev.removes with
    | none => exact covered member
    | some x =>
        have apart : ¬ i.id = x := fun same => by simp [removed, same] at stays
        exact (List.mem_eraseP_of_neg (by simpa using apart)).mpr (covered member)

theorem Covered.wrote (h : e.Healthy) (covered : e.Covered) {records : List Event} (admits : e.Admits records)
    (wrote : e.Wrote e' records) : e'.Covered := by
  intro r
  have named := InMemoryStore.replayed_named e.log
  rw [wrote.log, InMemoryStore.replayed_append, InMemoryStore.foldl_replayEvent_getResource r records named]
  exact wrote.related (fun both wf _ => covered_applySingle wf.idsNodup both _) (fun _ => List.Subset.refl _) h admits
    covered r

/-- Collection only drops live intervals. -/
theorem Covered.gc (h : e.Healthy) (covered : e.Covered) (now retentionMs : Ms) :
    (e.gcPastIntervals now retentionMs).Covered := by
  intro r
  have before := covered r
  rw [gc_getResource h]
  cases present : e.store.getResource r with
  | none =>
      rw [present] at before
      change Option.Rel _ ((InMemoryStore.replayed e.log).getResource r) none
      rw [rel_none before]
      exact .none
  | some live =>
      rw [present] at before
      obtain ⟨rs, rebuilt, subset⟩ := rel_some before
      change Option.Rel _ ((InMemoryStore.replayed e.log).getResource r) (some _)
      rw [rebuilt]
      exact .some fun i inside => subset (List.mem_filter.mp inside).1

theorem Covered.compactWal (h : e.Healthy) {order : List Ulid} (lists : order.Perm e.store.resourceIds) :
    (e.compactWal order).Covered := by
  intro r
  have restored := (compactWal_recoverable h lists).table r
  cases present : (e.compactWal order).store.getResource r with
  | none =>
      rw [present] at restored
      rw [rel_none restored]
      exact .none
  | some live =>
      rw [present] at restored
      obtain ⟨rs, rebuilt, restores⟩ := rel_some restored
      rw [rebuilt]
      exact .some restores.intervals.symm.subset

/-- What every run keeps of its log: its records are within the limits, and its replay has
    every live interval. -/
structure Logged (e : Engine) : Prop where
  healthy : e.Healthy
  limits : ∀ ev ∈ e.log, ev.WithinLimits
  covered : e.Covered

theorem Logged.next (logged : e.Logged) {move : Move} (possible : e.Possible move) : (e.next move).Logged := by
  have h := logged.healthy
  refine ⟨next_healthy h move, ?_, ?_⟩
  · cases move with
    | tick | gc => exact logged.limits
    | op o => exact next_op_limits h logged.limits o
    | compact order =>
        change ∀ ev ∈ (e.compactWal order).log, _
        rw [compactWal_eq h.running]
        exact fun ev inside => (snapshotEvents_limits h order ev inside).1
  · cases move with
    | tick => exact logged.covered
    | op o =>
        exact next_op_invariant (I := Covered) h logged.covered fun _ _ _ h before _ admits wrote => before.wrote h admits wrote
    | gc now retentionMs => exact logged.covered.gc h now retentionMs
    | compact order => exact Covered.compactWal h possible

theorem Reachable.logged {allowed : Engine → Move → Prop} (reached : Reachable allowed e) : e.Logged :=
  reached.invariant (fun clock ttl => ⟨start_healthy clock ttl, fun _ inside => (List.not_mem_nil inside).elim,
    fun _ => .none⟩) fun _ _ logged possible _ => logged.next possible

end Engine

/-! ## Cuts of a log behind its last flush -/

namespace Wal

variable {k : Crates}

theorem fileOf_append (before after : List Event) :
    fileOf k (before ++ after) = fileOf k before ++ after.flatMap (encodeEvent k) := by
  simp only [fileOf, List.flatMap_append, List.append_assoc]

theorem take_length_fileOf (before after : List Event) :
    (fileOf k (before ++ after)).take (fileOf k before).length = fileOf k before := by
  rw [fileOf_append, List.take_left]

/-- A crash behind a log keeps the log and some of the records of the last flush. -/
theorem replay_append_cut (decodes : k.Decodes) {before after : List Event}
    (good : ∀ ev ∈ before ++ after, Loggable ev) {n : Nat} (behind : (fileOf k before).length ≤ n) :
    ∃ whole rest, after = whole ++ rest ∧
      replay k (some ((fileOf k (before ++ after)).take n)) = .ok (before ++ whole) := by
  obtain ⟨rest, split⟩ := Frames.whole_prefix (encodeEvent k) after (n - (fileOf k before).length)
  refine ⟨_, rest, split.symm, ?_⟩
  rw [replay_cut decodes good, kept_append before after behind]

/-- A log cut right behind itself can be replayed only if all its records are short enough. -/
theorem short_of_cut (decodes : k.Decodes) {before after events : List Event} (limits : ∀ ev ∈ before, ev.WithinLimits)
    (replayed : replay k (some ((fileOf k (before ++ after)).take (fileOf k before).length)) = .ok events) :
    ∀ ev ∈ before, ev.serialize.length ≤ maxWalRecordBytes := by
  rw [take_length_fileOf] at replayed
  exact short_of_replay decodes (fun ev inside => ⟨(limits ev inside).representable, (limits ev inside).spansValid,
    (limits ev inside).counted⟩) replayed

end Wal

/-! ## A batch booking -/

namespace Engine

variable {e : Engine} {bookings : List (Ulid × Ulid × Span × Option String)}

/-- The record and the interval of one member of a batch. -/
def bookingRecord (b : Ulid × Ulid × Span × Option String) : Event := .bookingConfirmed b.1 b.2.1 b.2.2.1 b.2.2.2

def bookingInterval (b : Ulid × Ulid × Span × Option String) : Interval := ⟨b.1, b.2.2.1, .booking b.2.2.2⟩

theorem batchConfirmBookings_ok (h : e.Healthy) (some : bookings ≠ [])
    (ran : (exec (batchConfirmBookings bookings) e).1 = .ok ()) :
    e.checkBookings bookings = .ok () ∧
      (exec (batchConfirmBookings bookings) e).2.log = e.log ++ bookings.map bookingRecord := by
  have more : ¬ bookings.isEmpty = true := by simpa using some
  unfold batchConfirmBookings at ran ⊢
  rw [if_neg more, exec_bind_ok (exec_get e)] at ran ⊢
  cases checked : e.checkBookings bookings with
  | error error =>
      rw [checked, exec_bind_error (exec_check _ _)] at ran
      cases ran
  | ok _ =>
      rw [exec_bind_ok (exec_check _ _), exec_persistEarly h.running h.noFault]
      exact ⟨rfl, rfl⟩

/-- What the check of a batch says of each member. -/
theorem checkBookings_ok (passed : e.checkBookings bookings = .ok ()) :
    (∀ b ∈ bookings, validateLabel b.2.2.2 = .ok ()) ∧
      e.AdmittedBatch (bookings.map fun b => (b.1, b.2.1, b.2.2.1)) := by
  obtain ⟨_, labels, admitted⟩ := bind_ok.mp passed
  exact ⟨forM_ok.mp labels, admitBatch_ok admitted⟩

/-- A replayed booking is put on its resource, if that exists. -/
theorem mem_replayed_booking {s : InMemoryStore} (b : Ulid × Ulid × Span × Option String) {r : Ulid} {i : Interval} :
    i ∈ (s.replayEvent (bookingRecord b)).intervalsOn r ↔
      i ∈ s.intervalsOn r ∨ ((s.getResource r).isSome ∧ r = b.2.1 ∧ i = bookingInterval b) := by
  have table := InMemoryStore.replayOn_getResource (s := s) b.2.1 (bookingRecord b) r
  change i ∈ (s.replayOn b.2.1 (bookingRecord b)).intervalsOn r ↔ _
  rw [InMemoryStore.intervalsOn, table]
  split
  · next same =>
      subst same
      cases present : s.getResource b.2.1 with
      | none => simp [InMemoryStore.intervalsOn, present]
      | some rs =>
          have perm : (rs.insertInterval (bookingInterval b)).intervals.Perm (bookingInterval b :: rs.intervals) :=
            ResourceState.insertInterval_perm _
          have put := perm.mem_iff (a := i)
          rw [List.mem_cons, or_comm] at put
          have applied : ((bookingRecord b).ownPart rs.id).foldl ResourceState.applySingle rs =
              rs.insertInterval (bookingInterval b) := rfl
          simpa [InMemoryStore.intervalsOn, present, applied] using put
  · next apart => simp [InMemoryStore.intervalsOn, apart]

theorem isSome_replayed_booking {s : InMemoryStore} (b : Ulid × Ulid × Span × Option String) (r : Ulid) :
    ((s.replayEvent (bookingRecord b)).getResource r).isSome = (s.getResource r).isSome := by
  change ((s.replayOn b.2.1 (bookingRecord b)).getResource r).isSome = _
  rw [InMemoryStore.replayOn_getResource]
  split
  · next same => rw [Option.isSome_map, same]
  · rfl

/-- What replaying some of a batch's records adds. -/
theorem mem_replayed_bookings (bookings : List (Ulid × Ulid × Span × Option String)) {r : Ulid} {i : Interval} :
    ∀ {s : InMemoryStore}, i ∈ ((bookings.map bookingRecord).foldl InMemoryStore.replayEvent s).intervalsOn r ↔
      i ∈ s.intervalsOn r ∨ ((s.getResource r).isSome ∧ ∃ b ∈ bookings, r = b.2.1 ∧ i = bookingInterval b) := by
  induction bookings with
  | nil => simp
  | cons b rest ih =>
      intro s
      rw [List.map_cons, List.foldl_cons, ih, mem_replayed_booking, isSome_replayed_booking]
      simp only [List.mem_cons, exists_eq_or_imp]
      tauto

end Engine

namespace Wal

open Engine in
/-- A batch booking is all or nothing across a crash: wherever the crash cuts what its flush
    adds to the log, the rebuilt state has every booking of the batch or none of them. -/
def BatchAtomic (k : Crates) (e : Engine) (bookings : List (Ulid × Ulid × Span × Option String)) : Prop :=
  ∀ n, (fileOf k e.log).length ≤ n → ∃ events,
    replay k (some ((fileOf k (exec (batchConfirmBookings bookings) e).2.log).take n)) = .ok events ∧
    ∀ order : List Ulid,
      (∀ b ∈ bookings, bookingInterval b ∈ (InMemoryStore.rebuilt events order).intervalsOn b.2.1) ∨
      ∀ b ∈ bookings, bookingInterval b ∉ (InMemoryStore.rebuilt events order).intervalsOn b.2.1

section Batch

variable {e : Engine} {bookings : List (Ulid × Ulid × Span × Option String)}

/-- The records of a batch can be read back. -/
theorem batch_loggable (proper : ∀ b ∈ bookings, b.2.2.1.Valid) (passed : e.checkBookings bookings = .ok ()) :
    ∀ ev ∈ bookings.map Engine.bookingRecord, Loggable ev := by
  obtain ⟨labels, batch⟩ := Engine.checkBookings_ok passed
  refine List.forall_mem_map.mpr fun b member => ?_
  have within : (Engine.bookingRecord b).WithinLimits :=
    ⟨validateSpan_admits (proper b member) (batch.spans _ (List.mem_map_of_mem member)), labels b member⟩
  exact within.loggable
    ((Event.length_serialize_le within.shortTexts fun _ same => by cases same).trans (by decide))

/-- The replayed log has the resource of every booking of the batch. -/
theorem batch_present (logged : e.Logged) (passed : e.checkBookings bookings = .ok ()) :
    ∀ b ∈ bookings, ((InMemoryStore.replayed e.log).getResource b.2.1).isSome := by
  intro b member
  obtain ⟨guard, found, _⟩ := (Engine.checkBookings_ok passed).2.admitted _ (List.mem_map_of_mem member)
  have related := logged.covered b.2.1
  rw [found] at related
  obtain ⟨rs, rebuilt, _⟩ := rel_some related
  rw [rebuilt]
  rfl

/-- A cut behind the first record shows the first booking, so it has to show all of them; a
    cut before it then shows one of them, so it has to show all of them too. -/
theorem BatchAtomic.nothingNew (decodes : k.Decodes) (logged : e.Logged) (proper : ∀ b ∈ bookings, b.2.2.1.Valid)
    (several : 2 ≤ bookings.length) (ran : (exec (Engine.batchConfirmBookings bookings) e).1 = .ok ())
    (atomic : BatchAtomic k e bookings) :
    (∀ ev ∈ e.log, ev.serialize.length ≤ maxWalRecordBytes) ∧
      ∀ b ∈ bookings, Engine.bookingInterval b ∈ (InMemoryStore.replayed e.log).intervalsOn b.2.1 := by
  obtain ⟨first, rest, rfl⟩ : ∃ first rest, bookings = first :: rest :=
    List.exists_cons_of_length_pos (Nat.lt_of_lt_of_le Nat.zero_lt_two several)
  obtain ⟨passed, log⟩ := Engine.batchConfirmBookings_ok logged.healthy (List.cons_ne_nil _ _) ran
  have present := batch_present logged passed
  unfold BatchAtomic at atomic
  rw [log] at atomic
  simp only [InMemoryStore.rebuilt_intervalsOn] at atomic
  obtain ⟨events, uncut, before⟩ := atomic _ (Nat.le_refl _)
  have short := short_of_cut decodes logged.limits uncut
  have goodLog : ∀ ev ∈ e.log, Loggable ev := fun ev old => (logged.limits ev old).loggable (short ev old)
  rw [take_length_fileOf, replay_fileOf decodes goodLog] at uncut
  cases uncut
  refine ⟨short, ?_⟩
  have others : ∀ b ∈ rest, Engine.bookingInterval b ∈ (InMemoryStore.replayed e.log).intervalsOn b.2.1 := by
    intro b inRest
    have split : e.log ++ (first :: rest).map Engine.bookingRecord =
        (e.log ++ [Engine.bookingRecord first]) ++ rest.map Engine.bookingRecord := by simp
    have behind : (fileOf k e.log).length ≤ (fileOf k (e.log ++ [Engine.bookingRecord first])).length := by
      rw [fileOf_append, List.length_append]
      exact Nat.le_add_right _ _
    have goodFirst : ∀ ev ∈ e.log ++ [Engine.bookingRecord first], Loggable ev := fun ev inside =>
      (List.mem_append.mp inside).elim (goodLog ev) fun new =>
        batch_loggable proper passed ev (List.mem_cons.mpr (.inl (List.mem_singleton.mp new)))
    obtain ⟨events, cut, after⟩ := atomic _ behind
    rw [split, take_length_fileOf, replay_fileOf decodes goodFirst] at cut
    cases cut
    have shown : ∀ c i, i ∈ (InMemoryStore.replayed (e.log ++ [Engine.bookingRecord first])).intervalsOn c ↔
        i ∈ (InMemoryStore.replayed e.log).intervalsOn c ∨ (((InMemoryStore.replayed e.log).getResource c).isSome ∧
          c = first.2.1 ∧ i = Engine.bookingInterval first) := fun c i => by
      rw [InMemoryStore.replayed_append]
      exact Engine.mem_replayed_booking first
    have all := (after []).resolve_right fun none => none first List.mem_cons_self
      ((shown _ _).mpr (.inr ⟨present first List.mem_cons_self, rfl, rfl⟩))
    refine ((shown _ _).mp (all b (List.mem_cons_of_mem _ inRest))).resolve_right fun same => ?_
    have ids := (Engine.checkBookings_ok passed).2.idsNodup
    rw [List.map_map, List.map_cons, List.nodup_cons] at ids
    exact ids.1 (List.mem_map.mpr ⟨b, inRest, congrArg Interval.id same.2.2⟩)
  obtain ⟨second, inRest⟩ := List.exists_mem_of_ne_nil rest fun none => by simp [none] at several
  exact (before []).resolve_right fun none => none second (List.mem_cons_of_mem _ inRest) (others second inRest)

/-- A batch that brings nothing new is atomic. -/
theorem batchAtomic_of_already (decodes : k.Decodes) (logged : e.Logged) (proper : ∀ b ∈ bookings, b.2.2.1.Valid)
    (some : bookings ≠ []) (ran : (exec (Engine.batchConfirmBookings bookings) e).1 = .ok ())
    (short : ∀ ev ∈ e.log, ev.serialize.length ≤ maxWalRecordBytes)
    (already : ∀ b ∈ bookings, Engine.bookingInterval b ∈ (InMemoryStore.replayed e.log).intervalsOn b.2.1) :
    BatchAtomic k e bookings := by
  obtain ⟨passed, log⟩ := Engine.batchConfirmBookings_ok logged.healthy some ran
  intro n behind
  have good : ∀ ev ∈ e.log ++ bookings.map Engine.bookingRecord, Loggable ev := fun ev inside =>
    (List.mem_append.mp inside).elim (fun old => (logged.limits ev old).loggable (short ev old))
      (batch_loggable proper passed ev)
  obtain ⟨whole, rest, split, cut⟩ := replay_append_cut decodes good behind
  obtain ⟨kept, _, _, rfl, _⟩ := List.map_eq_append_iff.mp split
  rw [log]
  refine ⟨_, cut, fun _ => .inl fun b member => ?_⟩
  rw [InMemoryStore.rebuilt_intervalsOn, InMemoryStore.replayed_append]
  exact (Engine.mem_replayed_bookings kept).mpr (.inl (already b member))

/-- A batch of two bookings or more is atomic exactly when it brings nothing new: the log can
    be replayed and already gives back every booking of the batch, each left behind by one of
    the same id, resource, span and label that was collected. -/
theorem batchAtomic_iff (decodes : k.Decodes) (reached : Engine.Reachable (fun _ _ => True) e)
    (proper : ∀ b ∈ bookings, b.2.2.1.Valid) (several : 2 ≤ bookings.length)
    (ran : (exec (Engine.batchConfirmBookings bookings) e).1 = .ok ()) :
    BatchAtomic k e bookings ↔ (∀ ev ∈ e.log, ev.serialize.length ≤ maxWalRecordBytes) ∧
      ∀ b ∈ bookings, Engine.bookingInterval b ∈ (InMemoryStore.replayed e.log).intervalsOn b.2.1 := by
  have some : bookings ≠ [] := List.ne_nil_of_length_pos (Nat.lt_of_lt_of_le Nat.zero_lt_two several)
  exact ⟨BatchAtomic.nothingNew decodes reached.logged proper several ran,
    fun holds => batchAtomic_of_already decodes reached.logged proper some ran holds.1 holds.2⟩

end Batch

/-- An engine with one resource, and two bookings of it one behind the other. -/
def oneRoom : Engine := (Engine.start 0 1000).next (.op (.createResource 1 none none 1 none))

theorem oneRoom_reachable : Engine.Reachable (fun _ _ => True) oneRoom := .step _ (.start 0 1000) trivial trivial

def twoSlots : List (Ulid × Ulid × Span × Option String) := [(2, 1, ⟨10, 20⟩, none), (3, 1, ⟨30, 40⟩, none)]

theorem twoSlots_proper : ∀ b ∈ twoSlots, b.2.2.1.Valid := by decide

theorem twoSlots_ran : (exec (Engine.batchConfirmBookings twoSlots) oneRoom).1 = .ok () := rfl

theorem twoSlots_atomic_iff :
    BatchAtomic .bundled oneRoom twoSlots ↔ (∀ ev ∈ oneRoom.log, ev.serialize.length ≤ maxWalRecordBytes) ∧
      ∀ b ∈ twoSlots, Engine.bookingInterval b ∈ (InMemoryStore.replayed oneRoom.log).intervalsOn b.2.1 :=
  batchAtomic_iff bundled_decodes oneRoom_reachable twoSlots_proper (Nat.le_refl 2) twoSlots_ran

/-- A crash between the two records of an admitted batch keeps one booking of two. -/
theorem twoSlots_not_atomic : Engine.Reachable (fun _ _ => True) oneRoom ∧ (∀ b ∈ twoSlots, b.2.2.1.Valid) ∧
    (exec (Engine.batchConfirmBookings twoSlots) oneRoom).1 = .ok () ∧ ¬ BatchAtomic .bundled oneRoom twoSlots := by
  refine ⟨oneRoom_reachable, twoSlots_proper, twoSlots_ran, fun atomic => ?_⟩
  have already := (atomic.nothingNew bundled_decodes oneRoom_reachable.logged twoSlots_proper (Nat.le_refl 2)
    twoSlots_ran).2 (2, 1, ⟨10, 20⟩, none) List.mem_cons_self
  exact (List.not_mem_nil : _ ∉ ([] : List Interval)) already

end Wal

end Deltat
