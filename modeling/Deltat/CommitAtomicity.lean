import Deltat.Lib.Keyed
import Deltat.CrashAtomicity

/-! # What a crash leaves of a commit

A commit is one record whatever the number of its resources, so a crash keeps all of it or
nothing. Replay hands the record to every resource, which takes its own entries: one removal
by id and one insert for each. The removal finds the hold unless an interval that was
collected without a record still stands under the same id.
-/

namespace Deltat

open Lib Lib.Outcome Bincode Limits Conflict

/-! ## A commit of holds -/

/-- The booking that an entry of a record stands for. -/
def HoldCommit.booking (c : HoldCommit) : Interval := ⟨c.bookingId, c.span, .booking c.label⟩

namespace ResourceState

variable {rs : ResourceState} {x : Ulid}

/-- The intervals that carry an id. -/
def withId (rs : ResourceState) (x : Ulid) : List Interval := Keyed.withKey Interval.id x rs.intervals

theorem removeInterval_withId (x : Ulid) : (rs.removeInterval x).withId x = (rs.withId x).tail :=
  Keyed.withKey_erase_same Interval.id rs.intervals

theorem removeInterval_withId_other {y : Ulid} (apart : x ≠ y) : (rs.removeInterval y).withId x = rs.withId x :=
  Keyed.withKey_erase_other Interval.id apart rs.intervals

theorem insertInterval_withId (i : Interval) : ((rs.insertInterval i).withId i.id).Perm (i :: rs.withId i.id) :=
  Keyed.withKey_insertAt_same Interval.id rs.intervals _

theorem insertInterval_withId_other {i : Interval} (apart : i.id ≠ x) : (rs.insertInterval i).withId x = rs.withId x :=
  Keyed.withKey_insertAt_other Interval.id apart rs.intervals _

/-- A resource after entries of a commit. -/
def turned (rs : ResourceState) (entries : List HoldCommit) : ResourceState :=
  (entries.flatMap HoldCommit.events).foldl applySingle rs

theorem turned_cons (c : HoldCommit) (rest : List HoldCommit) :
    rs.turned (c :: rest) = ((rs.removeInterval c.holdId).insertInterval c.booking).turned rest := rfl

theorem turned_append (before after : List HoldCommit) : rs.turned (before ++ after) = (rs.turned before).turned after := by
  unfold turned
  rw [List.flatMap_append, List.foldl_append]

/-- Entries leave the ids that none of them names. -/
theorem turned_withId_other {entries : List HoldCommit} (apart : ∀ c ∈ entries, x ≠ c.holdId ∧ c.bookingId ≠ x) :
    ∀ {rs : ResourceState}, (rs.turned entries).withId x = rs.withId x := by
  induction entries with
  | nil => intro rs; rfl
  | cons c rest ih =>
      intro rs
      obtain ⟨notHold, notBooking⟩ := apart c List.mem_cons_self
      rw [turned_cons, ih fun d inRest => apart d (List.mem_cons_of_mem _ inRest),
        insertInterval_withId_other notBooking, removeInterval_withId_other notHold]

/-- Entries of a record whose holds and bookings are all different. -/
structure Distinct (entries : List HoldCommit) : Prop where
  holds : (entries.map (·.holdId)).Nodup
  bookings : (entries.map (·.bookingId)).Nodup
  apart : ∀ c ∈ entries, ∀ d ∈ entries, c.holdId ≠ d.bookingId

theorem Distinct.sublist {some all : List HoldCommit} (distinct : Distinct all) (sub : some.Sublist all) :
    Distinct some where
  holds := distinct.holds.sublist (sub.map _)
  bookings := distinct.bookings.sublist (sub.map _)
  apart c inC d inD := distinct.apart c (sub.subset inC) d (sub.subset inD)

/-- The entries before and after one of them name other ids. -/
theorem Distinct.split {before after : List HoldCommit} {c : HoldCommit} (distinct : Distinct (before ++ c :: after))
    {d : HoldCommit} (other : d ∈ before ++ after) :
    (c.holdId ≠ d.holdId ∧ d.bookingId ≠ c.holdId) ∧ c.bookingId ≠ d.holdId ∧ d.bookingId ≠ c.bookingId := by
  have moved : (before ++ c :: after).Perm (c :: (before ++ after)) := List.perm_middle
  have holds := (moved.map (·.holdId)).nodup_iff.mp distinct.holds
  have bookings := (moved.map (·.bookingId)).nodup_iff.mp distinct.bookings
  rw [List.map_cons, List.nodup_cons] at holds bookings
  have inC : c ∈ before ++ c :: after := moved.mem_iff.mpr List.mem_cons_self
  have inD : d ∈ before ++ c :: after := moved.mem_iff.mpr (List.mem_cons_of_mem _ other)
  exact ⟨⟨fun same => holds.1 (same ▸ List.mem_map_of_mem other), (distinct.apart c inC d inD).symm⟩,
    (distinct.apart d inD c inC).symm, fun same => bookings.1 (same ▸ List.mem_map_of_mem other)⟩

/-- An entry takes the first interval under its hold's id off the resource. -/
theorem turned_withId_hold {entries : List HoldCommit} (distinct : Distinct entries) {c : HoldCommit}
    (member : c ∈ entries) : (rs.turned entries).withId c.holdId = (rs.withId c.holdId).tail := by
  obtain ⟨before, after, rfl⟩ := List.append_of_mem member
  have own : c.bookingId ≠ c.holdId := (distinct.apart c member c member).symm
  rw [turned_append, turned_cons,
    turned_withId_other fun d inAfter => (distinct.split (List.mem_append_right before inAfter)).1,
    insertInterval_withId_other own, removeInterval_withId,
    turned_withId_other fun d inBefore => (distinct.split (List.mem_append_left after inBefore)).1]

/-- An entry puts its booking on the resource. -/
theorem turned_withId_booking {entries : List HoldCommit} (distinct : Distinct entries) {c : HoldCommit}
    (member : c ∈ entries) :
    ((rs.turned entries).withId c.bookingId).Perm (c.booking :: rs.withId c.bookingId) := by
  obtain ⟨before, after, rfl⟩ := List.append_of_mem member
  have own : c.bookingId ≠ c.holdId := (distinct.apart c member c member).symm
  rw [turned_append, turned_cons,
    turned_withId_other fun d inAfter => (distinct.split (List.mem_append_right before inAfter)).2]
  have put : ((((rs.turned before).removeInterval c.holdId).insertInterval c.booking).withId c.bookingId).Perm
      (c.booking :: ((rs.turned before).removeInterval c.holdId).withId c.bookingId) := insertInterval_withId c.booking
  rwa [removeInterval_withId_other own,
    turned_withId_other fun d inBefore => (distinct.split (List.mem_append_left after inBefore)).2] at put

end ResourceState

namespace Engine

variable {e : Engine} {commits : List (Ulid × Ulid × Option String)} {entries : List HoldCommit}

/-- The booking that a hold of the list becomes. -/
def bookingOf (c : Ulid × Ulid × Option String) (hold : Interval) : Interval := ⟨c.2.1, hold.span, .booking c.2.2⟩

/-- A property of every hold of the list on its resource, and the entry it belongs to. -/
def EveryHold (e : Engine) (commits : List (Ulid × Ulid × Option String))
    (p : (Ulid × Ulid × Option String) → Ulid → Interval → Prop) : Prop :=
  ∀ c ∈ commits, ∀ r rs hold, e.HoldOn c.1 r rs hold → p c r hold

/-- What an admitted commit records. -/
structure Recorded (e : Engine) (commits : List (Ulid × Ulid × Option String)) (entries : List HoldCommit) :
    Prop where
  distinct : ResourceState.Distinct entries
  entry : ∀ c ∈ commits, ∀ r rs hold, e.HoldOn c.1 r rs hold → ⟨c.1, c.2.1, r, hold.span, c.2.2⟩ ∈ entries
  back : ∀ d ∈ entries, ∃ c ∈ commits, ∃ rs hold, e.HoldOn c.1 d.resourceId rs hold ∧
    d = ⟨c.1, c.2.1, d.resourceId, hold.span, c.2.2⟩
  unused : ∀ c ∈ commits, e.store.getResourceForEntity c.2.1 = none
  limits : (Event.holdsCommitted entries).WithinLimits
  log : (exec (commitHolds commits) e).2.log = e.log ++ [.holdsCommitted entries]

theorem AdmittedCommits.recorded (h : e.Healthy) (admitted : e.AdmittedCommits entries)
    (limits : (Event.holdsCommitted entries).WithinLimits)
    (log : (exec (commitHolds (entries.map fun d => (d.holdId, d.bookingId, d.label))) e).2.log =
      e.log ++ [.holdsCommitted entries]) :
    e.Recorded (entries.map fun d => (d.holdId, d.bookingId, d.label)) entries := by
  have each : ∀ d ∈ entries, ∃ rs hold, e.HoldOn d.holdId d.resourceId rs hold ∧ d.span = hold.span ∧
      e.store.getResourceForEntity d.bookingId = none := by
    intro d member
    obtain ⟨rs, hold, present, found, unused, _, same⟩ := admitted.admitted d member
    obtain ⟨inside, named, isHold⟩ := findIntervalOfKind_mem found
    exact ⟨rs, hold, ⟨present, inside, named, isHold⟩, congrArg HoldCommit.span same, unused⟩
  refine ⟨⟨admitted.holdsNodup, admitted.bookingsNodup, ?_⟩, ?_, ?_, ?_, limits, log⟩
  · intro c inC d inD same
    obtain ⟨_, hold, on, _⟩ := each c inC
    obtain ⟨_, _, _, _, unused⟩ := each d inD
    exact on.ne_unused h unused (on.named.trans same)
  · intro c member r rs hold on
    obtain ⟨d, inD, rfl⟩ := List.mem_map.mp member
    obtain ⟨_, _, also, span, _⟩ := each d inD
    obtain ⟨rfl, rfl, rfl⟩ := on.unique h also
    rw [← span]
    exact inD
  · intro d member
    obtain ⟨rs, hold, on, span, _⟩ := each d member
    refine ⟨_, List.mem_map_of_mem member, rs, hold, on, ?_⟩
    rw [← span]
  · intro c member
    obtain ⟨d, inD, rfl⟩ := List.mem_map.mp member
    obtain ⟨_, _, _, _, unused⟩ := each d inD
    exact unused

theorem commitHolds_recorded (logged : e.Logged) (some : commits ≠ [])
    (ran : (exec (commitHolds commits) e).1 = .ok ()) : ∃ entries, e.Recorded commits entries := by
  have h := logged.healthy
  cases checked : e.checkCommits commits 0 with
  | error refused =>
      rw [commitHolds_refused some checked] at ran
      cases ran
  | ok both =>
      obtain ⟨rids, entries⟩ := both
      obtain ⟨e', wrote, records⟩ := commitHolds_wrote h some checked
      obtain ⟨admitted, rfl, _⟩ := checkCommits_admitted checked
      refine ⟨entries, admitted.recorded h ?_ ?_⟩
      · exact Admits.withinLimits h (.commit checked) _ List.mem_cons_self
      · rw [wrote]
        exact records.log

/-- Replaying the record hands each resource its own entries. -/
theorem Recorded.shown (logged : e.Logged) (recorded : e.Recorded commits entries) (r : Ulid) :
    ∃ rs : ResourceState, rs.intervals = (InMemoryStore.replayed e.log).intervalsOn r ∧
      (rs.turned (entries.filter (·.resourceId = r))).intervals =
        (InMemoryStore.replayed (e.log ++ [.holdsCommitted entries])).intervalsOn r := by
  have table : (InMemoryStore.replayed (e.log ++ [.holdsCommitted entries])).getResource r =
      ((InMemoryStore.replayed e.log).getResource r).map (·.turned (entries.filter (·.resourceId = r))) := by
    rw [InMemoryStore.replayed_append, List.foldl_cons, List.foldl_nil,
      InMemoryStore.replayEvent_getResource (InMemoryStore.replayed_named e.log), Event.stepOn_change rfl,
      ← Event.ownPart_eq_changesOn (.inl ⟨entries, rfl⟩)]
    rfl
  cases present : (InMemoryStore.replayed e.log).getResource r with
  | some rs =>
      rw [present, Option.map_some] at table
      exact ⟨rs, (InMemoryStore.intervalsOn_some present).symm, (InMemoryStore.intervalsOn_some table).symm⟩
  | none =>
      rw [present, Option.map_none] at table
      have untouched : entries.filter (·.resourceId = r) = [] := by
        refine List.filter_eq_nil_iff.mpr fun d member own => ?_
        obtain ⟨_, _, _, _, on, _⟩ := recorded.back d member
        have related := logged.covered d.resourceId
        rw [of_decide_eq_true own, present, ← of_decide_eq_true own, on.present] at related
        cases related
      refine ⟨.new r none none 0 none, ?_, ?_⟩
      · simp only [InMemoryStore.intervalsOn, present]
        rfl
      · simp only [untouched, InMemoryStore.intervalsOn, table]
        rfl

section Shown

variable {c : Ulid × Ulid × Option String} {r x : Ulid} {rs : ResourceState} {hold : Interval}

theorem Recorded.own (recorded : e.Recorded commits entries) (member : c ∈ commits) (on : e.HoldOn c.1 r rs hold) :
    (⟨c.1, c.2.1, r, hold.span, c.2.2⟩ : HoldCommit) ∈ entries.filter (·.resourceId = r) :=
  List.mem_filter.mpr ⟨recorded.entry c member r rs hold on, decide_eq_true rfl⟩

theorem Recorded.distinct_own (recorded : e.Recorded commits entries) :
    ResourceState.Distinct (entries.filter (·.resourceId = r)) :=
  recorded.distinct.sublist List.filter_sublist

/-- The record takes the first interval under a hold's id off the hold's resource. -/
theorem Recorded.withKey_hold (logged : e.Logged) (recorded : e.Recorded commits entries) (member : c ∈ commits)
    (on : e.HoldOn c.1 r rs hold) :
    Keyed.withKey Interval.id c.1 ((InMemoryStore.replayed (e.log ++ [.holdsCommitted entries])).intervalsOn r) =
      (Keyed.withKey Interval.id c.1 ((InMemoryStore.replayed e.log).intervalsOn r)).tail := by
  obtain ⟨rs, before, after⟩ := recorded.shown logged r
  rw [← before, ← after]
  exact ResourceState.turned_withId_hold recorded.distinct_own (recorded.own member on)

/-- The record puts the booking on the hold's resource. -/
theorem Recorded.withKey_booking (logged : e.Logged) (recorded : e.Recorded commits entries) (member : c ∈ commits)
    (on : e.HoldOn c.1 r rs hold) :
    (Keyed.withKey Interval.id c.2.1
      ((InMemoryStore.replayed (e.log ++ [.holdsCommitted entries])).intervalsOn r)).Perm
      (bookingOf c hold :: Keyed.withKey Interval.id c.2.1 ((InMemoryStore.replayed e.log).intervalsOn r)) := by
  obtain ⟨rs, before, after⟩ := recorded.shown logged r
  rw [← before, ← after]
  exact ResourceState.turned_withId_booking recorded.distinct_own (recorded.own member on)

/-- The record leaves what stands under any other id. -/
theorem Recorded.withKey_other (logged : e.Logged) (recorded : e.Recorded commits entries)
    (apart : e.EveryHold commits fun c q _ => q = r → x ≠ c.1 ∧ c.2.1 ≠ x) :
    Keyed.withKey Interval.id x ((InMemoryStore.replayed (e.log ++ [.holdsCommitted entries])).intervalsOn r) =
      Keyed.withKey Interval.id x ((InMemoryStore.replayed e.log).intervalsOn r) := by
  obtain ⟨rs, before, after⟩ := recorded.shown logged r
  rw [← before, ← after]
  refine ResourceState.turned_withId_other fun d inOwn => ?_
  obtain ⟨member, own⟩ := List.mem_filter.mp inOwn
  obtain ⟨c, inList, rs, hold, on, same⟩ := recorded.back d member
  rw [same]
  exact apart c inList d.resourceId rs hold on (of_decide_eq_true own)

end Shown

end Engine

namespace Wal

open Engine

/-- Replayed intervals in which every hold of the list stands and no booking does. -/
def HoldsStand (e : Engine) (commits : List (Ulid × Ulid × Option String)) (s : InMemoryStore) : Prop :=
  e.EveryHold commits fun c r hold => hold ∈ s.intervalsOn r ∧ bookingOf c hold ∉ s.intervalsOn r

/-- Replayed intervals in which every booking stands exactly once and no hold does. -/
def BookingsStand (e : Engine) (commits : List (Ulid × Ulid × Option String)) (s : InMemoryStore) : Prop :=
  e.EveryHold commits fun c r hold => (s.intervalsOn r).count (bookingOf c hold) = 1 ∧ hold ∉ s.intervalsOn r

/-- Intervals that are neither a hold of the list nor its booking stand as often as before. -/
def OthersStand (e : Engine) (commits : List (Ulid × Ulid × Option String)) (s s' : InMemoryStore) : Prop :=
  ∀ r i, (e.EveryHold commits fun c q hold => q = r → i ≠ hold ∧ i ≠ bookingOf c hold) →
    (s'.intervalsOn r).count i = (s.intervalsOn r).count i

/-- A commit of holds is all or nothing across a crash: wherever the crash cuts the log behind
    the earlier records, the rebuilt state has every hold and no booking, or every booking
    exactly once and no hold, and it has every other interval as the earlier log gives it. -/
def CommitAtomic (k : Crates) (e : Engine) (commits : List (Ulid × Ulid × Option String)) : Prop :=
  ∀ n, (fileOf k e.log).length ≤ n → ∃ events,
    replay k (some ((fileOf k (exec (commitHolds commits) e).2.log).take n)) = .ok events ∧
    ∀ order : List Ulid,
      (HoldsStand e commits (InMemoryStore.rebuilt events order) ∨
        BookingsStand e commits (InMemoryStore.rebuilt events order)) ∧
      OthersStand e commits (InMemoryStore.replayed e.log) (InMemoryStore.rebuilt events order)

/-- In the replayed log every hold of the list stands first and once under its id, and its
    booking does not stand yet. -/
def HoldsFirst (e : Engine) (commits : List (Ulid × Ulid × Option String)) : Prop :=
  e.EveryHold commits fun c r hold =>
    (∃ others, Keyed.withKey Interval.id c.1 ((InMemoryStore.replayed e.log).intervalsOn r) = hold :: others ∧
      hold ∉ others) ∧ bookingOf c hold ∉ (InMemoryStore.replayed e.log).intervalsOn r

section Commit

variable {k : Crates} {e : Engine} {commits : List (Ulid × Ulid × Option String)} {entries : List HoldCommit}

/-- Where the holds stand first, the record turns each into its booking. -/
theorem HoldsFirst.after (logged : e.Logged) (recorded : e.Recorded commits entries) (first : HoldsFirst e commits) :
    BookingsStand e commits (InMemoryStore.replayed (e.log ++ [.holdsCommitted entries])) ∧
      OthersStand e commits (InMemoryStore.replayed e.log)
        (InMemoryStore.replayed (e.log ++ [.holdsCommitted entries])) := by
  constructor
  · intro c member r rs hold on
    obtain ⟨⟨others, stands, once⟩, fresh⟩ := first c member r rs hold on
    constructor
    · have shown := (recorded.withKey_booking logged member on).count_eq (bookingOf c hold)
      have before : (Keyed.withKey Interval.id c.2.1 ((InMemoryStore.replayed e.log).intervalsOn r)).count
          (bookingOf c hold) = 0 :=
        (Keyed.count_withKey Interval.id _ (bookingOf c hold)).trans (List.count_eq_zero.mpr fresh)
      rw [List.count_cons_self, before] at shown
      exact (Keyed.count_withKey Interval.id _ (bookingOf c hold)).symm.trans shown
    · intro still
      have under := (Keyed.mem_withKey Interval.id).mpr ⟨still, on.named⟩
      rw [recorded.withKey_hold logged member on, stands] at under
      exact once under
  · intro r i apart
    rw [← Keyed.count_withKey Interval.id _ i, ← Keyed.count_withKey Interval.id (InMemoryStore.intervalsOn _ r) i]
    by_cases named : ∃ c ∈ commits, ∃ rs hold, e.HoldOn c.1 r rs hold ∧ (i.id = c.1 ∨ i.id = c.2.1)
    · obtain ⟨c, member, rs, hold, on, same⟩ := named
      obtain ⟨notHold, notBooking⟩ := apart c member r rs hold on rfl
      obtain ⟨⟨others, stands, _⟩, _⟩ := first c member r rs hold on
      rcases same with same | same
      · rw [same, recorded.withKey_hold logged member on, stands, List.tail_cons, List.count_cons_of_ne notHold.symm]
      · rw [same, (recorded.withKey_booking logged member on).count_eq, List.count_cons_of_ne notBooking.symm]
    · rw [recorded.withKey_other logged]
      intro c member q rs hold on same
      subst same
      exact ⟨fun isHold => named ⟨c, member, rs, hold, on, .inl isHold⟩,
        fun isBooking => named ⟨c, member, rs, hold, on, .inr isBooking.symm⟩⟩

theorem othersStand_refl (s : InMemoryStore) : OthersStand e commits s s := fun _ _ _ => rfl

theorem HoldsFirst.before (first : HoldsFirst e commits) : HoldsStand e commits (InMemoryStore.replayed e.log) := by
  intro c member r rs hold on
  obtain ⟨⟨others, stands, _⟩, fresh⟩ := first c member r rs hold on
  refine ⟨((Keyed.mem_withKey Interval.id (x := c.1)).mp ?_).1, fresh⟩
  rw [stands]
  exact List.mem_cons_self

theorem commit_loggable (logged : e.Logged) (recorded : e.Recorded commits entries)
    (short : ∀ ev ∈ e.log, ev.serialize.length ≤ maxWalRecordBytes)
    (fits : (Event.holdsCommitted entries).serialize.length ≤ maxWalRecordBytes) :
    ∀ ev ∈ e.log ++ [.holdsCommitted entries], Loggable ev := by
  intro ev inside
  rcases List.mem_append.mp inside with old | new
  · exact (logged.limits ev old).loggable (short ev old)
  · obtain rfl := List.mem_singleton.mp new
    exact recorded.limits.loggable fits

theorem commitAtomic_of_first (decodes : k.Decodes) (logged : e.Logged) (recorded : e.Recorded commits entries)
    (fits : (Event.holdsCommitted entries).serialize.length ≤ maxWalRecordBytes)
    (short : ∀ ev ∈ e.log, ev.serialize.length ≤ maxWalRecordBytes) (first : HoldsFirst e commits) :
    CommitAtomic k e commits := by
  intro n behind
  obtain ⟨whole, rest, split, cut⟩ := replay_append_cut decodes (commit_loggable logged recorded short fits) behind
  rw [recorded.log]
  refine ⟨_, cut, fun order => ?_⟩
  simp only [HoldsStand, BookingsStand, OthersStand, InMemoryStore.rebuilt_intervalsOn]
  cases whole with
  | nil =>
      rw [List.append_nil]
      exact ⟨.inl first.before, othersStand_refl _⟩
  | cons ev more =>
      obtain ⟨rfl, nothing⟩ := List.cons.inj split
      obtain ⟨rfl, rfl⟩ := List.append_eq_nil_iff.mp nothing.symm
      obtain ⟨booked, others⟩ := first.after logged recorded
      exact ⟨.inr booked, others⟩

/-- The state before the record has every hold and the state after it every booking, so all
    holds turn at this one record. -/
theorem CommitAtomic.first (decodes : k.Decodes) (logged : e.Logged) (recorded : e.Recorded commits entries)
    (fits : (Event.holdsCommitted entries).serialize.length ≤ maxWalRecordBytes) (atomic : CommitAtomic k e commits) :
    (∀ ev ∈ e.log, ev.serialize.length ≤ maxWalRecordBytes) ∧ HoldsFirst e commits := by
  unfold CommitAtomic at atomic
  rw [recorded.log] at atomic
  simp only [HoldsStand, BookingsStand, InMemoryStore.rebuilt_intervalsOn] at atomic
  obtain ⟨events, uncut, before⟩ := atomic _ (Nat.le_refl _)
  have short := short_of_cut decodes logged.limits uncut
  refine ⟨short, ?_⟩
  have good := commit_loggable logged recorded short fits
  have goodLog : ∀ ev ∈ e.log, Loggable ev := fun ev old => good ev (List.mem_append_left _ old)
  rw [take_length_fileOf, replay_fileOf decodes goodLog] at uncut
  cases uncut
  obtain ⟨events, uncut, after⟩ := atomic (fileOf k (e.log ++ [.holdsCommitted entries])).length (by
    rw [fileOf_append, List.length_append]
    exact Nat.le_add_right _ _)
  rw [List.take_length, replay_fileOf decodes good] at uncut
  cases uncut
  -- Every live hold stands before the record, so the bookings do not.
  intro c member r rs hold on
  have stands : hold ∈ (InMemoryStore.replayed e.log).intervalsOn r := by
    have related := logged.covered r
    rw [on.present] at related
    obtain ⟨rs', rebuilt, subset⟩ := rel_some related
    rw [InMemoryStore.intervalsOn_some rebuilt]
    exact subset on.inside
  have notYet := (before []).1.resolve_right fun booked => (booked c member r rs hold on).2 stands
  -- The booking stands after it, so the hold does not.
  have put : bookingOf c hold ∈ (InMemoryStore.replayed (e.log ++ [.holdsCommitted entries])).intervalsOn r :=
    ((Keyed.mem_withKey Interval.id).mp
      ((recorded.withKey_booking logged member on).symm.subset List.mem_cons_self)).1
  have gone := ((after []).1.resolve_left fun still => (still c member r rs hold on).2 put) c member r rs hold on
  have under := (Keyed.mem_withKey Interval.id).mpr ⟨stands, on.named⟩
  refine ⟨?_, (notYet c member r rs hold on).2⟩
  cases listed : Keyed.withKey Interval.id c.1 ((InMemoryStore.replayed e.log).intervalsOn r) with
  | nil =>
      rw [listed] at under
      cases under
  | cons i others =>
      have tail := recorded.withKey_hold logged member on
      rw [listed, List.tail_cons] at tail
      have once : hold ∉ others := fun again =>
        gone.2 ((Keyed.mem_withKey Interval.id).mp (by rw [tail]; exact again)).1
      rw [listed] at under
      obtain rfl := (List.mem_cons.mp under).resolve_right once
      exact ⟨others, rfl, once⟩

/-- A commit whose record is short enough is atomic exactly when the earlier log can be
    replayed and has each of its holds first and once under its id, and no booking of it. -/
theorem commitAtomic_iff (decodes : k.Decodes) (reached : Engine.Reachable (fun _ _ => True) e)
    (some : commits ≠ []) (ran : (exec (commitHolds commits) e).1 = .ok ())
    (fits : ∀ entries, (exec (commitHolds commits) e).2.log = e.log ++ [.holdsCommitted entries] →
      (Event.holdsCommitted entries).serialize.length ≤ maxWalRecordBytes) :
    CommitAtomic k e commits ↔
      (∀ ev ∈ e.log, ev.serialize.length ≤ maxWalRecordBytes) ∧ HoldsFirst e commits := by
  obtain ⟨entries, recorded⟩ := commitHolds_recorded reached.logged some ran
  have short := fits entries recorded.log
  exact ⟨CommitAtomic.first decodes reached.logged recorded short,
    fun holds => commitAtomic_of_first decodes reached.logged recorded short holds.1 holds.2⟩

/-- Where the log restores the store, the holds always stand so. -/
theorem holdsFirst_of_recoverable (h : e.Healthy) (recorded : e.Recorded commits entries) (kept : e.Recoverable) :
    HoldsFirst e commits := by
  intro c member r rs hold on
  have related := kept.table r
  rw [on.present] at related
  obtain ⟨rs', rebuilt, restores⟩ := rel_some related
  rw [InMemoryStore.intervalsOn_some rebuilt]
  constructor
  · have alone := (restores.intervals.trans
      (ResourceState.perm_extract (h.consistent.wellFormed r rs on.present).idsNodup on.inside)).filter (·.id = c.1)
    have noOther : (rs.intervals.filter fun j => decide (j.id ≠ hold.id)).filter (·.id = c.1) = [] := by
      rw [List.filter_filter, List.filter_eq_nil_iff]
      simp [on.named]
    rw [List.filter_cons_of_pos (by simpa using on.named), noOther] at alone
    exact ⟨[], List.perm_singleton.mp alone, List.not_mem_nil⟩
  · intro stands
    have inside := restores.intervals.subset stands
    have taken := (h.consistent.entities c.2.1 r).mpr ⟨rs, on.present, List.mem_map_of_mem inside⟩
    rw [recorded.unused c member] at taken
    cases taken

end Commit

theorem valid_30_40 : Span.Valid ⟨30, 40⟩ := by decide

/-- A run in which a booking is collected and its id then names a hold. -/
def heldAgain : Engine :=
  ((((Engine.start 0 1000).next (.op (.createResource 1 none none 1 none))).next
    (.op (.confirmBooking 2 1 ⟨⟨10, 20⟩, Engine.valid_10_20⟩ none 0))).next (.gc 1000 0)).next
    (.op (.placeHold 2 1 ⟨⟨30, 40⟩, valid_30_40⟩ 100 0))

theorem heldAgain_reachable : Engine.Reachable (fun _ _ => True) heldAgain :=
  .step _ (.step _ (.step _ (.step _ (.start 0 1000) trivial trivial) trivial trivial) trivial trivial) trivial trivial

theorem heldAgain_ran : (exec (commitHolds [(2, 3, none)]) heldAgain).1 = .ok () := rfl

theorem heldAgain_fits (entries : List HoldCommit)
    (log : (exec (commitHolds [(2, 3, none)]) heldAgain).2.log = heldAgain.log ++ [.holdsCommitted entries]) :
    (Event.holdsCommitted entries).serialize.length ≤ maxWalRecordBytes := by
  have written : (exec (commitHolds [(2, 3, none)]) heldAgain).2.log =
      heldAgain.log ++ [.holdsCommitted [⟨2, 3, 1, ⟨30, 40⟩, none⟩]] := rfl
  obtain ⟨rfl⟩ := List.cons.inj (List.append_cancel_left (written.symm.trans log)) |>.1
  decide +kernel

theorem heldAgain_atomic_iff :
    CommitAtomic .bundled heldAgain [(2, 3, none)] ↔
      (∀ ev ∈ heldAgain.log, ev.serialize.length ≤ maxWalRecordBytes) ∧ HoldsFirst heldAgain [(2, 3, none)] :=
  commitAtomic_iff bundled_decodes heldAgain_reachable (List.cons_ne_nil _ _) heldAgain_ran heldAgain_fits

/-- Replay turns the collected booking, not the hold, when the hold that took over its id is
    committed. -/
theorem heldAgain_not_atomic : Engine.Reachable (fun _ _ => True) heldAgain ∧
    (exec (commitHolds [(2, 3, none)]) heldAgain).1 = .ok () ∧
    (∀ entries, (exec (commitHolds [(2, 3, none)]) heldAgain).2.log = heldAgain.log ++ [.holdsCommitted entries] →
      (Event.holdsCommitted entries).serialize.length ≤ maxWalRecordBytes) ∧
    ¬ CommitAtomic .bundled heldAgain [(2, 3, none)] := by
  refine ⟨heldAgain_reachable, heldAgain_ran, heldAgain_fits, fun atomic => ?_⟩
  obtain ⟨entries, recorded⟩ :=
    commitHolds_recorded heldAgain_reachable.logged (List.cons_ne_nil _ _) heldAgain_ran
  have first := (atomic.first bundled_decodes heldAgain_reachable.logged recorded
    (heldAgain_fits entries recorded.log)).2
  have on : heldAgain.HoldOn 2 1 ⟨1, none, none, 1, none, [⟨2, ⟨30, 40⟩, .hold 100⟩]⟩ ⟨2, ⟨30, 40⟩, .hold 100⟩ :=
    ⟨rfl, List.mem_cons_self, rfl, rfl⟩
  obtain ⟨⟨others, stands, _⟩, _⟩ := first (2, 3, none) List.mem_cons_self 1 _ _ on
  have shown : Keyed.withKey Interval.id 2 ((InMemoryStore.replayed heldAgain.log).intervalsOn 1) =
      [⟨2, ⟨10, 20⟩, .booking none⟩, ⟨2, ⟨30, 40⟩, .hold 100⟩] := rfl
  rw [shown] at stands
  cases stands

end Wal

end Deltat
