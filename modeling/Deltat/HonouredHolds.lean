import Deltat.CommitHolds

/-! # A live hold is always honoured

A live hold counts in the load of its resource at every instant it occupies, and no admission
lets that load exceed the capacity. So beside the other allocations there is always room for
the booking that the hold becomes, whatever happened since it was placed.
-/

namespace Deltat

open Lib Lib.Outcome Conflict

/-- Steps that lower no capacity, change no buffer and commit at most one hold a call. -/
def Move.KeepsHolds (e : Engine) : Move → Prop
  | .op (.commitHolds commits _) => commits.length ≤ 1
  | move => Move.KeepsShape e move

namespace Engine

variable {e e' : Engine}

/-- An update that does not lower the capacity and keeps the buffer keeps the bound. -/
theorem update_noOverbooking (fits : e.NoOverbooking) {id : Ulid} {name : Option (Option String)}
    {capacity : Option UInt32} {bufferAfter : Option (Option Ms)}
    (keeps : ∀ rs, e.store.getResource id = some rs → (∀ c, capacity = some c → rs.capacity ≤ c) ∧
      ∀ b, bufferAfter = some b → rs.bufferAfter = b)
    (wrote : e.Wrote e' [.resourceUpdated id name capacity bufferAfter]) : e'.NoOverbooking := by
  intro r rs' found t
  rw [wrote.table, List.foldl_cons, List.foldl_nil, Event.stepOn_change rfl] at found
  obtain ⟨rs, present, rfl⟩ := Option.map_eq_some_iff.mp found
  have bound := fits r rs present t
  rw [wrote.clock]
  by_cases here : id = r
  · subst here
    obtain ⟨raises, same⟩ := keeps rs present
    have changed : (Event.resourceUpdated id name capacity bufferAfter).changesOn id =
        [.resourceUpdated id name capacity bufferAfter] := by
      simp [Event.changesOn, Event.perResource, Event.resourceId?]
    have buffer : bufferAfter.getD rs.bufferAfter = rs.bufferAfter := by
      cases bufferAfter with
      | none => rfl
      | some b => exact (same b rfl).symm
    have notLower : rs.capacity.toNat ≤ (capacity.getD rs.capacity).toNat := by
      cases capacity with
      | none => exact Nat.le_refl _
      | some c => exact raises c rfl
    rw [changed, List.foldl_cons, List.foldl_nil]
    simp only [ResourceState.applySingle, ResourceState.liveAt, ResourceState.occupies, ResourceState.buffer, buffer]
    exact bound.trans notLower
  · have untouched : (Event.resourceUpdated id name capacity bufferAfter).changesOn r = [] := by
      simp [Event.changesOn, Event.perResource, Event.resourceId?, here]
    rw [untouched]
    exact bound

/-- Every such step keeps the bound. -/
theorem next_keepsHolds (h : e.Healthy) (fits : e.NoOverbooking) {move : Move} (keeps : Move.KeepsHolds e move) :
    (e.next move).NoOverbooking := by
  have ordinary : ∀ {move : Move}, Move.KeepsRoom move → (e.next move).NoOverbooking :=
    fun room => next_noOverbooking h fits room
  cases move with
  | tick | gc | compact => exact ordinary trivial
  | op o =>
      cases o with
      | updateResource id name capacity bufferAfter =>
          have effect := effect_updateResource h id name capacity bufferAfter
          change (exec (updateResource id name capacity bufferAfter) e).2.NoOverbooking
          unfold Ends at effect
          cases result : (exec (updateResource id name capacity bufferAfter) e).1 with
          | error error =>
              rw [result] at effect
              rw [show (exec (updateResource id name capacity bufferAfter) e).2 = e from effect]
              exact fits
          | ok u =>
              rw [result] at effect
              rcases effect with same | ⟨records, rfl, _, wrote⟩
              · rw [same]
                exact fits
              · exact update_noOverbooking fits keeps wrote
      | commitHolds commits limit =>
          cases commits with
          | nil => exact fits
          | cons c rest =>
              have one : (c :: rest).length ≤ 1 := keeps
              rw [List.length_cons] at one
              exact ordinary (show (c :: rest).length = 1 by rw [List.length_cons]; omega)
      | createResource | batchCreateResources | deleteResource | addRule | batchAddRules | updateRule | removeRule
      | placeHold | batchPlaceHolds | releaseHold | expireHold | confirmBooking | batchConfirmBookings
      | cancelBooking => exact ordinary trivial

theorem Reachable.noOverbooking (reached : Reachable Move.KeepsHolds e) : e.Healthy ∧ e.NoOverbooking :=
  reached.invariant (I := fun e => e.Healthy ∧ e.NoOverbooking)
    (fun clock ttl => ⟨start_healthy clock ttl, by rintro r rs ⟨⟩⟩)
    fun _ move both _ keeps => ⟨next_healthy both.1 move, next_keepsHolds both.1 both.2 keeps⟩

/-- A live hold leaves room for itself at every instant it occupies. -/
theorem HoldOn.admissible (h : e.Healthy) (fits : e.NoOverbooking) {id r : Ulid} {rs : ResourceState} {hold : Interval}
    (on : e.HoldOn id r rs hold) (live : hold.kind.live e.clock = true) : e.Admissible id := by
  refine ⟨r, rs, hold, on, fun t covers => ?_⟩
  have own : rs.liveAt e.clock t = rs.othersAt e.clock (some hold.id) t + if hold.kind.live e.clock then 1 else 0 :=
    ResourceState.liveAt_own (h.consistent.wellFormed r rs on.present).idsNodup on.inside covers
  have bound := fits r rs on.present t
  rw [on.named, if_pos live] at own
  omega

/-- A live hold is always honoured: its commit succeeds with any unused booking id and valid
    label, and turns exactly that hold into a booking of the same resource and span. -/
theorem live_hold_honoured (reached : Reachable Move.KeepsHolds e) {id r : Ulid} {rs : ResourceState} {hold : Interval}
    (on : e.HoldOn id r rs hold) (live : hold.kind.live e.clock = true) {bookingId : Ulid} {label : Option String}
    (unused : e.store.getResourceForEntity bookingId = none) (valid : validateLabel label = .ok ()) :
    ∃ e', exec (commitHold id bookingId label) e = (.ok (), e') ∧
      (∃ rs', e'.store.getResource r = some rs' ∧
        rs.Swapped rs' hold ⟨bookingId, hold.span, .booking label⟩) ∧
      ∀ q, q ≠ r → e'.store.getResource q = e.store.getResource q := by
  obtain ⟨h, fits⟩ := reached.noOverbooking
  have single : e.ValidCommits [(id, bookingId, label)] := by
    have one : 1 ≤ Limits.maxBatchSize := by decide
    refine ⟨one, List.nodup_singleton _, List.nodup_singleton _, ?_, ?_⟩
    · exact List.forall_mem_singleton.mpr unused
    · exact List.forall_mem_singleton.mpr valid
  obtain ⟨rids, entries, passed⟩ := (checkCommits_iff h single 0).mpr
    (List.forall_mem_singleton.mpr (on.admissible h fits live))
  obtain ⟨e', ran, wrote⟩ := commitHolds_wrote h (List.cons_ne_nil _ []) passed
  cases checkCommits_entries h single passed with
  | @cons _ entry _ _ first none =>
      cases none
      obtain ⟨_, rs', hold', on', recorded⟩ := first
      obtain ⟨sameResource, rfl, rfl⟩ := on.unique h on'
      rw [← sameResource] at recorded
      subst recorded
      exact ⟨e', ran, swapped_of_wrote h on rfl (.commit passed) wrote⟩

/-- A run that places a hold and later raises the capacity. -/
def raisedLater : Engine :=
  (((start 0 1000).next (.op (.createResource 1 none none 1 none))).next
    (.op (.placeHold 2 1 ⟨⟨10, 20⟩, valid_10_20⟩ 100 0))).next (.op (.updateResource 1 none (some 2) none))

theorem raisedLater_reachable : Reachable Move.KeepsHolds raisedLater := by
  refine .step _ (.step _ (.step _ (.start 0 1000) trivial trivial) trivial trivial) trivial fun rs present => ⟨?_, ?_⟩
  · rintro c ⟨⟩
    have capacity : rs.capacity = 1 := by
      cases present
      rfl
    rw [capacity]
    decide
  · rintro b ⟨⟩

theorem raisedLater_hold :
    raisedLater.HoldOn 2 1 ⟨1, none, none, 2, none, [⟨2, ⟨10, 20⟩, .hold 100⟩]⟩ ⟨2, ⟨10, 20⟩, .hold 100⟩ :=
  ⟨rfl, List.mem_cons_self, rfl, rfl⟩

theorem raisedLater_honoured :
    ∃ e', exec (commitHold 2 3 none) raisedLater = (.ok (), e') ∧
      (∃ rs', e'.store.getResource 1 = some rs' ∧
        ResourceState.Swapped ⟨1, none, none, 2, none, [⟨2, ⟨10, 20⟩, .hold 100⟩]⟩ rs' ⟨2, ⟨10, 20⟩, .hold 100⟩
          ⟨3, ⟨10, 20⟩, .booking none⟩) ∧
      ∀ q, q ≠ 1 → e'.store.getResource q = raisedLater.store.getResource q :=
  live_hold_honoured raisedLater_reachable raisedLater_hold rfl rfl rfl

end Engine

end Deltat
