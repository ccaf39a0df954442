import Deltat.Restarts

/-! # A crash after a collection

Collection drops what is past from memory only. What a crash restores is what the log says, so
the bookings that collection made room for meet the ones it dropped. The restored state is legal
when each record found its ids and its room on the log's own account, not on memory's alone.
-/

namespace Deltat

open Lib Outcome History

/-- Whether a record leaves the capacity and the buffer of its resource alone. -/
def Event.SetsNoRoom (ev : Event) : Prop := ∀ r name capacity bufferAfter,
  ev = .resourceUpdated r name capacity bufferAfter → capacity = none ∧ bufferAfter = none

/-- Room on the log's own account at the reading `now`: where the record adds an allocation that
    is live, it and what the records before it leave there are within the capacity. A record that
    sets a capacity or a buffer finds what they leave within it. -/
structure Event.RoomAfter (now : Ms) (before : List Event) (ev : Event) : Prop where
  added : ∀ r rs, (InMemoryStore.replayed before).getResource r = some rs → ∀ t,
    0 < rs.countAt now ((ev.changesOn r).filterMap (·.adds)) t →
    rs.countAt now ((ev.changesOn r).filterMap (·.adds)) t +
      rs.countAt now (rs.intervals.filter fun i => decide (some i.id ∉ (ev.changesOn r).map (·.removes))) t ≤
        rs.capacity.toNat
  updated : ev.SetsNoRoom ∨ ∀ r rs, ev.resourceId? = some r → (InMemoryStore.replayed before).getResource r = some rs →
    ∀ t, (ev.setFields rs).liveAt now t ≤ (ev.setFields rs).capacity.toNat

/-- A record that fits what the records before it leave. -/
def Event.FitsLog (now : Ms) (before : List Event) (ev : Event) : Prop := ev.FreshAfter before ∧ ev.RoomAfter now before

/-- The steps of a record that sets no capacity and no buffer keep both. -/
theorem Event.SetsNoRoom.steps {ev change : Event} (keeps : ev.SetsNoRoom) (step : change ∈ ev.perResource) :
    change.KeepsRoom := by
  cases ev with
  | resourceUpdated r name capacity bufferAfter =>
      obtain ⟨rfl, rfl⟩ := keeps r name capacity bufferAfter rfl
      rw [List.mem_singleton.mp step]
      exact fun _ => ⟨rfl, rfl⟩
  | holdsCommitted commits =>
      obtain ⟨c, _, isEvent⟩ := List.mem_flatMap.mp step
      simp only [HoldCommit.events, List.mem_cons, List.not_mem_nil, or_false] at isEvent
      rcases isEvent with rfl | rfl <;> exact fun _ => ⟨rfl, rfl⟩
  | resourceCreated | resourceDeleted | ruleAdded | ruleUpdated | ruleRemoved | holdPlaced | holdReleased
  | bookingConfirmed | bookingCancelled =>
      rw [List.mem_singleton.mp step]
      exact fun _ => ⟨rfl, rfl⟩

namespace InMemoryStore

variable {s : InMemoryStore} {events : List Event} {ev : Event} {now t : Ms} {r : Ulid} {rs : ResourceState}

/-- A resource accepts its own steps of a record that applies. -/
theorem Indexed.accepted (indexed : s.Indexed) (all : s.AllApply ev.perResource) (present : s.getResource r = some rs) :
    ∀ change ∈ ev.changesOn r, rs.Accepts change := by
  intro change own
  obtain ⟨step, routed⟩ := List.mem_filter.mp own
  obtain ⟨q, applies⟩ := all.applies change step
  rw [decide_eq_true_eq, applies.routed] at routed
  obtain rfl := Option.some.inj routed
  exact indexed.accepts present applies

/-- A record that finds its room keeps the bound. -/
theorem liveAt_stepped (indexed : s.Indexed) (table : ∀ r, s.getResource r = (replayed events).getResource r)
    (all : s.AllApply ev.perResource) (room : ev.RoomAfter now events)
    (found : (replayed events).getResource r = some rs) (before : rs.liveAt now t ≤ rs.capacity.toNat) :
    ((ev.changesOn r).foldl ResourceState.applySingle rs).liveAt now t ≤
      ((ev.changesOn r).foldl ResourceState.applySingle rs).capacity.toNat := by
  have present : s.getResource r = some rs := (table r).trans found
  have accepts := indexed.accepted all present
  have apart : (ev.changesOn r).Pairwise Event.Independent := all.apart.sublist List.filter_sublist
  have kept : ev.SetsNoRoom → ((ev.changesOn r).foldl ResourceState.applySingle rs).liveAt now t ≤
      ((ev.changesOn r).foldl ResourceState.applySingle rs).capacity.toNat := by
    intro keeps
    have steps : ∀ change ∈ ev.changesOn r, change.KeepsRoom := fun change own => keeps.steps (List.mem_filter.mp own).1
    rw [(ResourceState.foldl_applySingle_room steps rs).1,
      ResourceState.liveAt_foldl (indexed.wellFormed r rs present) accepts apart steps]
    rcases Nat.eq_zero_or_pos (rs.countAt now ((ev.changesOn r).filterMap (·.adds)) t) with none | some
    · have fewer : rs.countAt now (rs.intervals.filter fun i => decide (Option.some i.id ∉ (ev.changesOn r).map (·.removes))) t ≤
          rs.liveAt now t := ResourceState.countAt_mono List.filter_sublist
      omega
    · exact room.added r rs found t some
  rcases room.updated with keeps | fits
  · exact kept keeps
  · cases ev with
    | resourceUpdated id name capacity bufferAfter =>
        by_cases own : id = r
        · subst own
          have alone : (Event.resourceUpdated id name capacity bufferAfter).changesOn id =
              [.resourceUpdated id name capacity bufferAfter] := by
            simp [Event.changesOn, Event.perResource, Event.resourceId?]
          rw [alone]
          exact fits id rs rfl found t
        · have nothing : (Event.resourceUpdated id name capacity bufferAfter).changesOn r = [] := by
            simp [Event.changesOn, Event.perResource, Event.resourceId?, own]
          rw [nothing]
          exact before
    | resourceCreated | resourceDeleted | ruleAdded | ruleUpdated | ruleRemoved | holdPlaced | holdReleased
    | bookingConfirmed | bookingCancelled | holdsCommitted =>
        exact kept (by rintro r name capacity bufferAfter ⟨⟩)

/-- Where every record fits what the log leaves before it, no instant of a replayed resource has
    more live allocations than its capacity. -/
theorem replayed_liveAt (composed : Composed events) (fits : Throughout (Event.FitsLog now) events) (r : Ulid) :
    ∀ rs, (replayed events).getResource r = some rs → ∀ t, rs.liveAt now t ≤ rs.capacity.toNat := by
  induction events using List.reverseRecOn with
  | nil =>
      intro rs found
      cases found
  | append_singleton events ev ih =>
      obtain ⟨composedBefore, stands⟩ := throughout_concat.mp composed
      obtain ⟨fitsBefore, fresh, room⟩ := throughout_concat.mp fits
      obtain ⟨s, accounts⟩ := accounts_of_fresh composedBefore (fitsBefore.mono fun _ _ both => both.1)
      have before := ih composedBefore fitsBefore
      intro rs found t
      rw [replayed_concat] at found
      cases stands with
      | created =>
          simp only [Event.stepOn] at found
          split at found
          · cases found
            exact Nat.zero_le _
          · exact before rs found t
      | deleted id =>
          simp only [Event.stepOn] at found
          split at found
          · cases found
          · exact before rs found t
      | changed change located apart =>
          rw [Event.stepOn_change change] at found
          obtain ⟨old, there, rfl⟩ := Option.map_eq_some_iff.mp found
          have all := accounts.allApply located apart fresh
          exact liveAt_stepped accounts.indexed accounts.table all room there (before old there t)

end InMemoryStore

namespace Engine

variable {e : Engine}

/-- A resource of capacity two with a collected booking, booked again over the same past time. -/
def bookedOver : Engine :=
  ((((start 0 1000).next (.op (.createResource 1 none none 2 none))).next
    (.op (.confirmBooking 2 1 ⟨⟨10, 20⟩, valid_10_20⟩ none 0))).next (.gc 1000 0)).next
    (.op (.confirmBooking 3 1 ⟨⟨10, 20⟩, valid_10_20⟩ none 0))

theorem bookedOver_log : bookedOver.log = [.resourceCreated 1 none none 2 none, .bookingConfirmed 2 1 ⟨10, 20⟩ none,
    .bookingConfirmed 3 1 ⟨10, 20⟩ none] := by
  decide +kernel

-- Memory has the second booking only.
example : bookedOver.store.getResource 1 = some ⟨1, none, none, 2, none, [⟨3, ⟨10, 20⟩, .booking none⟩]⟩ := by
  decide +kernel

theorem bookedOver_lived : Lived RestartsClean bookedOver :=
  .step (.move (.op _)) (.step (.move (.gc 1000 0)) (.step (.move (.op _)) (.step (.move (.op _)) (.start 0 1000)
    trivial trivial) trivial trivial) trivial trivial) trivial trivial

/-- A booking fits a log that leaves its id with nobody and fewer intervals than the capacity. -/
theorem booking_fits {before : List Event} {x r : Ulid} {span : Span} {label : Option String} (now : Ms)
    (free : lastOwner before x = none)
    (few : ∀ rs, (InMemoryStore.replayed before).getResource r = some rs → rs.intervals.length < rs.capacity.toNat) :
    (Event.bookingConfirmed x r span label).FitsLog now before := by
  refine ⟨?_, ?_, .inl (by rintro q name capacity bufferAfter ⟨⟩)⟩
  · intro change step i added
    rw [List.mem_singleton.mp step] at added
    cases added
    exact .inr free
  · intro q rs found t covered
    by_cases own : q = r
    · subst own
      have one : rs.countAt now (((Event.bookingConfirmed x q span label).changesOn q).filterMap (·.adds)) t ≤ 1 :=
        List.countP_le_length.trans ((List.length_filterMap_le _ _).trans (List.length_filter_le _ _))
      have others : rs.countAt now (rs.intervals.filter fun i => decide (some i.id ∉
          ((Event.bookingConfirmed x q span label).changesOn q).map (·.removes))) t ≤ rs.intervals.length :=
        List.countP_le_length.trans (List.length_filter_le _ _)
      have room := few rs found
      omega
    · have nothing : (Event.bookingConfirmed x r span label).changesOn q = [] := by
        simp [Event.changesOn, Event.perResource, Event.resourceId?, Ne.symm own]
      rw [nothing] at covered
      cases covered

/-- A create fits every log. -/
theorem create_fits (now : Ms) (before : List Event) (id : Ulid) (parentId : Option Ulid) (name : Option String)
    (capacity : UInt32) (bufferAfter : Option Ms) :
    (Event.resourceCreated id parentId name capacity bufferAfter).FitsLog now before := by
  refine ⟨?_, ?_, .inl (by rintro r name capacity bufferAfter ⟨⟩)⟩
  · intro change step i added
    rw [List.mem_singleton.mp step] at added
    cases added
  · intro r rs _ t covered
    have nothing : (Event.resourceCreated id parentId name capacity bufferAfter).changesOn r = [] := rfl
    rw [nothing] at covered
    cases covered

/-- The second booking finds the first one in the log, and a place beside it. -/
theorem bookedOver_fits : Throughout (Event.FitsLog 1000) bookedOver.log := by
  rw [bookedOver_log]
  refine throughout_cons.mpr ⟨create_fits .., throughout_cons.mpr ⟨booking_fits 1000 rfl fun rs found => ?_,
    throughout_singleton.mpr (booking_fits 1000 rfl fun rs found => ?_)⟩⟩
  · cases found
    decide
  · cases found
    decide

end Engine

end Deltat
