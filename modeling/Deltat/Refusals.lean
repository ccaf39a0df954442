import Deltat.NeverDoubleBook

/-! # A refusal leaves no trace

Every operation but the two that go member by member makes all its checks before its first
effect. What it calls after them fails with an error of the log writer only.
-/

namespace Deltat

open Lib Lib.Outcome

/-- An error of the log writer: the write was refused by a stopped tenant, or its flush failed. -/
def EngineError.OfLog (error : EngineError) : Prop := ∃ what, error = .walError what

namespace Engine

open EngineError

variable {e : Engine}

/-! ## What follows the checks -/

theorem modifyStore_fails (f : InMemoryStore → InMemoryStore) : FailsWith OfLog (modifyStore f) :=
  fun _ _ same => by cases same

/-- Queueing is refused by a stopped tenant, and a flush can fail. -/
theorem queue_fails (records : List Event) {f : Except EngineError Unit → EngineM Unit}
    (rest : ∀ outcome : Except EngineError Unit, (∀ error, outcome = .error error → OfLog error) →
      FailsWith OfLog (f outcome)) : FailsWith OfLog (queue records >>= f) := by
  intro e
  unfold Ends
  rw [exec_bind]
  unfold queue
  rw [exec_bind_ok (exec_get e)]
  cases e.failed with
  | true =>
      intro error same
      cases same
      exact ⟨_, rfl⟩
  | false =>
      cases e.flushFault with
      | none => exact rest (.ok ()) (fun error same => by cases same) _
      | some what => exact rest (.error (.walError what)) (fun error same => by cases same; exact ⟨_, rfl⟩) _

theorem liftExcept_fails {outcome : Except EngineError Unit} (failed : ∀ error, outcome = .error error → OfLog error) :
    FailsWith OfLog (liftExcept outcome : EngineM Unit) := by
  intro e
  unfold Ends
  rw [exec_liftExcept]
  exact failed

theorem walAppend_fails (ev : Event) : FailsWith OfLog (walAppend ev) :=
  queue_fails [ev] fun _ failed => liftExcept_fails failed

theorem persistAndApply_fails (rid : Ulid) (ev : Event) : FailsWith OfLog (persistAndApply rid ev) :=
  (walAppend_fails ev).bind fun _ => modifyStore_fails _

theorem persistEarly_fails (locked : List Ulid) (records : List Event) : FailsWith OfLog (persistEarly locked records) :=
  queue_fails records fun _ failed => (modifyStore_fails _).bind fun _ => liftExcept_fails failed

theorem watchHoldExpiry_fails (expiresAt : Ms) : FailsWith OfLog (watchHoldExpiry expiresAt) :=
  fun _ _ same => by cases same

/-! ## The operations -/

/-- A refusal with its counter-offer, when it is an error of the log writer. -/
def OfferOfLog (refused : Refused) : Prop := refused.error.OfLog

theorem offer_fails {x : EngineM Unit} (fails : FailsWith OfLog x) :
    FailsWith OfferOfLog (ExceptT.adapt Refused.ofError x) := fails.adapt fun _ ofLog => ofLog

/-- The plain form of an operation fails with the error inside the refusal. -/
theorem ofOffer_untouched {x : OfferM Unit} (untouched : Ends x e (Untouched OfferOfLog e)) :
    Ends (EngineM.ofOffer x) e (Untouched OfLog e) := Untouched.adapt untouched fun _ ofLog => ofLog

theorem persistAndApply_untouched (rid : Ulid) (ev : Event) :
    Ends (persistAndApply rid ev) e (Untouched OfLog e) := (persistAndApply_fails rid ev).untouched

theorem createResource_untouched (id : Ulid) (parentId : Option Ulid) (name : Option String) (capacity : UInt32)
    (bufferAfter : Option Ms) :
    Ends (createResource id parentId name capacity bufferAfter) e (Untouched OfLog e) := by
  refine Ends.get (Untouched.check fun _ _ => FailsWith.untouched ?_)
  refine (walAppend_fails _).bind fun _ => (modifyStore_fails _).bind fun _ => ?_
  cases parentId with
  | none => exact fun _ _ same => by cases same
  | some pid => exact modifyStore_fails _

theorem deleteResource_untouched (id : Ulid) : Ends (deleteResource id) e (Untouched OfLog e) := by
  refine Ends.get (Untouched.check fun rs _ => FailsWith.untouched ?_)
  exact (modifyStore_fails _).bind fun _ => (walAppend_fails _).bind fun _ => modifyStore_fails _

theorem updateResource_untouched (id : Ulid) (name : Option (Option String)) (capacity : Option UInt32)
    (bufferAfter : Option (Option Ms)) :
    Ends (updateResource id name capacity bufferAfter) e (Untouched OfLog e) :=
  Untouched.check fun _ _ => Ends.get (Untouched.check fun _ _ => persistAndApply_untouched _ _)

theorem placeHold_untouched (id rid : Ulid) (span : Span) (expiresAt : Ms) (limit : Nat) :
    Ends (placeHoldOffering id rid span expiresAt limit) e (Untouched OfferOfLog e) := by
  refine Ends.get (Untouched.check fun _ _ => FailsWith.untouched ?_)
  exact (offer_fails (watchHoldExpiry_fails _)).bind fun _ => offer_fails (persistEarly_fails _ _)

theorem confirmBooking_untouched (id rid : Ulid) (span : Span) (label : Option String) (limit : Nat) :
    Ends (confirmBookingOffering id rid span label limit) e (Untouched OfferOfLog e) :=
  Ends.get (Untouched.check fun _ _ => (offer_fails (persistEarly_fails _ _)).untouched)

theorem commitHolds_untouched (commits : List (Ulid × Ulid × Option String)) (limit : Nat) :
    Ends (commitHoldsOffering commits limit) e (Untouched OfferOfLog e) := by
  unfold commitHoldsOffering
  split
  · exact fun _ same => by cases same
  · exact Ends.get (Untouched.check fun _ _ => (offer_fails (persistEarly_fails _ _)).untouched)

theorem batchConfirmBookings_untouched (bookings : List (Ulid × Ulid × Span × Option String)) :
    Ends (batchConfirmBookings bookings) e (Untouched OfLog e) := by
  unfold batchConfirmBookings
  split
  · exact fun _ same => by cases same
  · exact Ends.get (Untouched.check fun _ _ => (persistEarly_fails _ _).untouched)

theorem batchPlaceHolds_untouched (holds : List (Ulid × Ulid × Span × Ms)) :
    Ends (batchPlaceHolds holds) e (Untouched OfLog e) := by
  refine Ends.get (Untouched.check fun clamped _ => ?_)
  split
  · exact fun _ same => by cases same
  · refine Ends.get (Untouched.check fun _ _ => FailsWith.untouched ?_)
    exact (watchHoldExpiry_fails _).bind fun _ => persistEarly_fails _ _

/-- A change of one entity, located and checked first. -/
theorem removal_untouched {c : Except EngineError Ulid} {record : Ulid → Event} :
    Ends (do
      let rid ← c
      persistAndApply rid (record rid) : EngineM Unit) e (Untouched OfLog e) :=
  Untouched.check fun rid _ => persistAndApply_untouched rid _

end Engine

/-- Whether an operation goes member by member, where a refusal keeps the members before. -/
def Op.inTurn : Op → Bool
  | batchCreateResources _ | batchAddRules _ => true
  | _ => false

namespace Engine

open EngineError in
theorem run_untouched (o : Op) (whole : o.inTurn = false) (e : Engine) : Ends o.run e (Untouched OfLog e) := by
  cases o with
  | createResource => exact createResource_untouched _ _ _ _ _
  | deleteResource => exact deleteResource_untouched _
  | updateResource => exact updateResource_untouched _ _ _ _
  | addRule => exact Ends.get (Untouched.check fun _ _ => persistAndApply_untouched _ _)
  | updateRule | removeRule | releaseHold | expireHold | cancelBooking => exact Ends.get removal_untouched
  | placeHold => exact ofOffer_untouched (placeHold_untouched _ _ _ _ _)
  | batchPlaceHolds => exact batchPlaceHolds_untouched _
  | commitHolds => exact ofOffer_untouched (commitHolds_untouched _ _)
  | confirmBooking => exact ofOffer_untouched (confirmBooking_untouched _ _ _ _ _)
  | batchConfirmBookings => exact batchConfirmBookings_untouched _
  | batchCreateResources | batchAddRules => cases whole

/-- An operation that does not go member by member and is refused for a reason other than the
    log leaves everything as it was: the table, the indexes, and the log. -/
theorem refused_no_trace {o : Op} (whole : o.inTurn = false) {e e' : Engine} {error : EngineError}
    (ran : exec o.run e = (.error error, e')) (refused : ∀ what, error ≠ .walError what) : e' = e := by
  have untouched := run_untouched o whole e
  unfold Ends at untouched
  rw [ran] at untouched
  exact untouched error rfl fun ⟨what, same⟩ => refused what same

theorem later_valid : (⟨30, 40⟩ : Span).Valid := by decide

theorem taken_valid : (⟨12, 18⟩ : Span).Valid := by decide

/-- A batch whose second member meets a booking. -/
def halfTaken : Op := .batchConfirmBookings [(3, 1, ⟨⟨30, 40⟩, later_valid⟩, none), (4, 1, ⟨⟨12, 18⟩, taken_valid⟩, none)]

theorem halfTaken_no_trace : ∃ e', exec halfTaken.run bookedOnce = (.error (.conflict 2), e') ∧ e' = bookedOnce := by
  have conflict : (exec halfTaken.run bookedOnce).1 = .error (.conflict 2) := by decide +kernel
  have ran : exec halfTaken.run bookedOnce = (.error (.conflict 2), (exec halfTaken.run bookedOnce).2) :=
    Prod.ext conflict rfl
  exact ⟨_, ran, refused_no_trace rfl ran fun _ same => by cases same⟩

end Engine

end Deltat
