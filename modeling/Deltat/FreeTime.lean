import Deltat.CommitAtomicity
import Deltat.Instants

/-! # Changes that only take time away

A resource that has the same rules and at every instant at least as many live allocations is
free at fewer instants. Placing a hold or a booking does that to a resource, and so does a
commit, as long as the removal of each of its holds takes the hold that its entry names.
-/

namespace Deltat

open Lib

/-- No entry takes for its booking the id of a later entry's hold on the same resource, unless
    that hold starts before it. -/
def KeepsHolds (entries : List HoldCommit) : Prop :=
  entries.Pairwise fun a b => a.resourceId = b.resourceId → a.bookingId = b.holdId → b.span.start < a.span.start

/-- A record of one hold or one booking. -/
def Event.isAllocation : Event → Bool
  | .holdPlaced .. | .bookingConfirmed .. => true
  | _ => false

/-- A change that leaves spans representable and buffers durations. -/
structure Event.Timely (change : Event) : Prop where
  spans : ∀ i, change.adds = some i → i.span.Representable
  buffers : ∀ rs : ResourceState, 0 ≤ rs.buffer → 0 ≤ (change.setFields rs).buffer

namespace ResourceState

variable {rs rs' rs'' : ResourceState} {t now : Ms}

/-- The second resource is the first with allocations added or kept longer. -/
structure Fuller (rs rs' : ResourceState) : Prop where
  rules : ∀ i, i.kind.isRule → (i ∈ rs'.intervals ↔ i ∈ rs.intervals)
  capacity : rs'.capacity = rs.capacity
  buffer : rs'.buffer = rs.buffer
  load : ∀ now t, rs.liveAt now t ≤ rs'.liveAt now t

theorem Fuller.refl (rs : ResourceState) : rs.Fuller rs := ⟨fun _ _ => .rfl, rfl, rfl, fun _ _ => Nat.le_refl _⟩

theorem Fuller.trans (first : rs.Fuller rs') (second : rs'.Fuller rs'') : rs.Fuller rs'' where
  rules i rule := (second.rules i rule).trans (first.rules i rule)
  capacity := second.capacity.trans first.capacity
  buffer := second.buffer.trans first.buffer
  load now t := (first.load now t).trans (second.load now t)

theorem Fuller.hasRuleAt (fuller : rs.Fuller rs') {kind : IntervalKind} (rule : kind.isRule) (t : Ms) :
    rs'.hasRuleAt kind t = rs.hasRuleAt kind t := by
  rw [Bool.eq_iff_iff]
  simp only [ResourceState.hasRuleAt, List.any_eq_true, Bool.and_eq_true, decide_eq_true_eq]
  constructor <;> rintro ⟨i, inside, rfl, covers⟩
  · exact ⟨i, (fuller.rules i rule).mp inside, rfl, covers⟩
  · exact ⟨i, (fuller.rules i rule).mpr inside, rfl, covers⟩

theorem Fuller.hasNonBlockingRule (fuller : rs.Fuller rs') : rs'.hasNonBlockingRule = rs.hasNonBlockingRule := by
  rw [Bool.eq_iff_iff]
  simp only [ResourceState.hasNonBlockingRule, List.any_eq_true, decide_eq_true_eq]
  constructor <;> rintro ⟨i, inside, kind⟩
  · exact ⟨i, (fuller.rules i (by rw [kind]; rfl)).mp inside, kind⟩
  · exact ⟨i, (fuller.rules i (by rw [kind]; rfl)).mpr inside, kind⟩

/-- Whatever a read shows free of the fuller resource it shows free of the other. -/
theorem Fuller.availability (fuller : rs.Fuller rs') (timeline : rs.Timeline) (timeline' : rs'.Timeline) {query : Span}
    {nonBlocking blocking : List Span} (started : query.start ≤ t) (notEnded : t < query.end) (range : t < Limits.i64Max)
    (free : Covers (Availability.availability rs' query nonBlocking blocking now) t) :
    Covers (Availability.availability rs query nonBlocking blocking now) t := by
  rw [availability_covers timeline' nonBlocking blocking started notEnded range] at free
  rw [availability_covers timeline nonBlocking blocking started notEnded range]
  rw [fuller.hasNonBlockingRule, fuller.hasRuleAt rfl, fuller.hasRuleAt rfl, fuller.capacity] at free
  exact ⟨free.1, free.2.1, free.2.2.1, (fuller.load now t).trans_lt free.2.2.2⟩

/-! ## Allocations -/

/-- Another allocation. -/
theorem fuller_insert {i : Interval} (allocation : i.kind.isRule = false) : rs.Fuller (rs.insertInterval i) where
  rules j rule := by
    rw [(insertInterval_perm i).mem_iff, List.mem_cons, or_iff_right]
    rintro rfl
    rw [allocation] at rule
    cases rule
  capacity := rfl
  buffer := rfl
  load now t := by
    unfold liveAt
    rw [(insertInterval_perm i).countP_eq, List.countP_cons]
    exact Nat.le_add_right _ _

/-- A hold in place of which there is a booking of the same span. -/
theorem Swapped.fuller {hold booking : Interval} (swapped : rs.Swapped rs' hold booking) : rs.Fuller rs' where
  rules i rule := by
    obtain ⟨others, before, after⟩ := swapped.others
    have notHold : i ≠ hold := by
      rintro rfl
      have isHold := swapped.isHold
      cases kind : i.kind <;> simp [kind, IntervalKind.isRule, IntervalKind.isHold] at rule isHold
    have notBooking : i ≠ booking := by
      rintro rfl
      obtain ⟨label, kind⟩ := swapped.isBooking
      rw [kind] at rule
      cases rule
    simp [before.mem_iff, after.mem_iff, notHold, notBooking]
  capacity := swapped.capacity
  buffer := swapped.buffer
  load now t := by rw [swapped.liveAt]; exact Nat.le_add_right _ _

/-! ## Commits -/

/-- The removal of the hold of every entry takes a hold of the entry's span. -/
def EntriesStand (rs : ResourceState) (entries : List HoldCommit) : Prop :=
  ∀ c ∈ entries, ∃ hold, (rs.withId c.holdId).head? = some hold ∧ hold.kind.isHold = true ∧ hold.span = c.span

theorem withId_head (rs : ResourceState) (x : Ulid) : (rs.withId x).head? = rs.intervals.find? (·.id = x) :=
  List.head?_filter ..

/-- One entry of a commit whose hold stands. -/
theorem swapped_entry {c : HoldCommit} {hold : Interval} (found : (rs.withId c.holdId).head? = some hold)
    (isHold : hold.kind.isHold = true) (span : hold.span = c.span) :
    rs.Swapped ((rs.removeInterval c.holdId).insertInterval c.booking) hold c.booking where
  isHold := isHold
  isBooking := ⟨c.label, rfl⟩
  sameSpan := span.symm
  capacity := rfl
  buffer := rfl
  others := by
    rw [withId_head] at found
    refine ⟨(rs.removeInterval c.holdId).intervals, ?_, insertInterval_perm _⟩
    obtain ⟨named, before, after, split, apart⟩ := List.find?_eq_some_iff_append.mp found
    have erased : (rs.removeInterval c.holdId).intervals = before ++ after := by
      change rs.intervals.eraseP (·.id = c.holdId) = _
      rw [split, List.eraseP_append_right _ (by simpa using apart), List.eraseP_cons, named]
      rfl
    rw [erased, split]
    exact List.perm_middle

/-- An interval put behind the first one that carries an id leaves that one the first. -/
theorem insertInterval_head (sorted : rs.intervals.Pairwise fun a b => a.span.start ≤ b.span.start) {x : Ulid}
    {i hold : Interval} (found : (rs.withId x).head? = some hold) (earlier : hold.span.start < i.span.start) :
    ((rs.insertInterval i).withId x).head? = some hold := by
  have after : (rs.insertInterval i).intervals.Pairwise fun a b => a.span.start ≤ b.span.start :=
    insertInterval_sorted i sorted
  unfold insertInterval BinarySearch.insertAt at after ⊢
  generalize BinarySearch.position _ = index at after ⊢
  have behind : ∀ b ∈ rs.intervals.drop index, i.span.start ≤ b.span.start :=
    (List.pairwise_cons.mp (List.pairwise_append.mp after).2.1).1
  rw [withId, Keyed.withKey, ← List.take_append_drop index rs.intervals, List.filter_append, List.head?_append] at found
  rw [withId, Keyed.withKey, List.filter_append, List.head?_append]
  cases first : ((rs.intervals.take index).filter fun j => decide (j.id = x)).head? with
  | some j =>
      rw [first] at found
      exact found
  | none =>
      rw [first] at found
      have inside := (List.mem_filter.mp (List.mem_of_head? found)).1
      exact absurd (behind hold inside) (not_le_of_gt earlier)

/-- A commit swaps the holds of a resource for bookings, entry by entry. -/
theorem fuller_turned {entries : List HoldCommit} {r : Ulid} (own : ∀ c ∈ entries, c.resourceId = r)
    (holds : (entries.map (·.holdId)).Nodup) (keeps : KeepsHolds entries) : ∀ {rs : ResourceState},
      (rs.intervals.Pairwise fun a b => a.span.start ≤ b.span.start) → rs.EntriesStand entries →
        rs.Fuller (rs.turned entries) := by
  induction entries with
  | nil => exact fun _ _ => .refl _
  | cons c rest ih =>
      intro rs sorted stand
      obtain ⟨hold, found, isHold, span⟩ := stand c List.mem_cons_self
      have swapped := swapped_entry found isHold span
      rw [List.map_cons, List.nodup_cons] at holds
      rw [KeepsHolds, List.pairwise_cons] at keeps
      have taken : (rs.removeInterval c.holdId).intervals.Pairwise fun a b => a.span.start ≤ b.span.start :=
        sorted.sublist List.eraseP_sublist
      rw [turned_cons]
      apply swapped.fuller.trans
      apply ih (fun later inside => own later (List.mem_cons_of_mem _ inside)) holds.2 keeps.2 (insertInterval_sorted _ taken)
      intro later inside
      obtain ⟨hold', found', isHold', span'⟩ := stand later (List.mem_cons_of_mem _ inside)
      have other : later.holdId ≠ c.holdId := fun same => holds.1 (same ▸ List.mem_map_of_mem inside)
      have there : ((rs.removeInterval c.holdId).withId later.holdId).head? = some hold' := by
        rw [removeInterval_withId_other other]
        exact found'
      refine ⟨hold', ?_, isHold', span'⟩
      by_cases named : c.bookingId = later.holdId
      · have here : c.resourceId = later.resourceId :=
          (own c List.mem_cons_self).trans (own later (List.mem_cons_of_mem _ inside)).symm
        apply insertInterval_head taken there
        rw [span']
        exact keeps.1 later inside here named
      · rw [insertInterval_withId_other named]
        exact there

/-! ## Records -/

theorem Timeline.applySingle (timeline : rs.Timeline) {change : Event} (timely : change.Timely) :
    (rs.applySingle change).Timeline where
  sorted := applySingle_sorted timeline.sorted change
  spans i inside := by
    rw [applySingle_eq, setFields_intervals, (put_perm change.adds).mem_iff, List.mem_append, Option.mem_toList] at inside
    rcases inside with added | stays
    · exact timely.spans i added
    · apply timeline.spans i
      cases removed : change.removes with
      | none => rwa [removed] at stays
      | some x =>
          rw [removed] at stays
          exact List.eraseP_sublist.subset stays
  buffer := by
    have same : (rs.applySingle change).buffer = (change.setFields rs).buffer := by
      simp only [ResourceState.buffer, (applySingle_fields rs change).2.1]
    rw [same]
    exact timely.buffers rs timeline.buffer

theorem Timeline.foldl {changes : List Event} (timely : ∀ change ∈ changes, change.Timely) :
    ∀ {rs : ResourceState}, rs.Timeline → (changes.foldl ResourceState.applySingle rs).Timeline := by
  induction changes with
  | nil => exact fun timeline => timeline
  | cons change rest ih =>
      intro rs timeline
      apply ih fun later inside => timely later (List.mem_cons_of_mem _ inside)
      exact timeline.applySingle (timely change List.mem_cons_self)

/-- Every record in turn leaves the resource no more time. -/
def Tightens (r : Ulid) (rs : ResourceState) : List Event → Prop
  | [] => True
  | record :: rest =>
      rs.Fuller ((record.changesOn r).foldl applySingle rs) ∧ Tightens r ((record.changesOn r).foldl applySingle rs) rest

variable {r : Ulid}

theorem tightens_cons {record : Event} {rest : List Event} : rs.Tightens r (record :: rest) ↔
    rs.Fuller ((record.changesOn r).foldl applySingle rs) ∧ ((record.changesOn r).foldl applySingle rs).Tightens r rest :=
  .rfl

theorem tightens_append {records later : List Event} : ∀ {rs : ResourceState}, rs.Tightens r (records ++ later) ↔
    rs.Tightens r records ∧ ((records.flatMap (Event.changesOn r)).foldl applySingle rs).Tightens r later := by
  induction records with
  | nil => exact fun {rs} => ⟨fun all => ⟨trivial, all⟩, fun both => both.2⟩
  | cons record rest ih =>
      intro rs
      rw [List.cons_append, List.flatMap_cons, List.foldl_append, tightens_cons, tightens_cons, ih, and_assoc]

theorem Tightens.fuller {records : List Event} : ∀ {rs : ResourceState}, rs.Tightens r records →
    rs.Fuller ((records.flatMap (Event.changesOn r)).foldl applySingle rs) := by
  induction records with
  | nil => exact fun _ => .refl _
  | cons record rest ih =>
      intro rs tightens
      rw [List.flatMap_cons, List.foldl_append]
      exact tightens.1.trans (ih tightens.2)

theorem tightens_untouched {records : List Event} (untouched : records.flatMap (Event.changesOn r) = []) :
    rs.Tightens r records := by
  induction records with
  | nil => trivial
  | cons record rest ih =>
      rw [List.flatMap_cons, List.append_eq_nil_iff] at untouched
      rw [tightens_cons, untouched.1]
      exact ⟨.refl rs, ih untouched.2⟩

theorem tightens_allocations {records : List Event} (allocations : ∀ record ∈ records, record.isAllocation) :
    ∀ {rs : ResourceState}, rs.Tightens r records := by
  induction records with
  | nil => exact fun {rs} => trivial
  | cons record rest ih =>
      intro rs
      refine ⟨?_, ih fun later inside => allocations later (List.mem_cons_of_mem _ inside)⟩
      have kind := allocations record List.mem_cons_self
      cases record with
      | holdPlaced id rid span expiresAt | bookingConfirmed id rid span label =>
          simp only [Event.changesOn, Event.perResource, Event.resourceId?, List.filter_singleton]
          by_cases here : some rid = some r
          · simp only [here, decide_true, cond_true]
            exact fuller_insert rfl
          · simp only [here, decide_false, cond_false]
            exact .refl rs
      | _ => cases kind

/-- The records of an early write, decided on the resource as it is. -/
def Takes (rs : ResourceState) (r : Ulid) (records : List Event) : Prop :=
  (∀ record ∈ records, record.isAllocation) ∨ ∃ entries, records = [.holdsCommitted entries] ∧
    (entries.map (·.holdId)).Nodup ∧ rs.EntriesStand (entries.filter (·.resourceId = r))

theorem Takes.tightens {records : List Event} (takes : rs.Takes r records) (timeline : rs.Timeline)
    (keeps : ∀ entries, .holdsCommitted entries ∈ records → KeepsHolds entries) : rs.Tightens r records := by
  rcases takes with allocations | ⟨entries, rfl, holds, stand⟩
  · exact tightens_allocations allocations
  · refine ⟨?_, trivial⟩
    rw [← Event.ownPart_eq_changesOn (.inl ⟨entries, rfl⟩)]
    apply fuller_turned (r := r) (fun c inside => by simpa using (List.mem_filter.mp inside).2) _ _ timeline.sorted stand
    · exact holds.sublist (List.filter_sublist.map _)
    · exact (keeps entries List.mem_cons_self).sublist List.filter_sublist

end ResourceState

end Deltat
