import Deltat.Runs
import Deltat.Selects

/-! # Notices

What the subscribers of a resource are told of each change, and the operations of an engine that
tells them. A change that is applied early is announced by the log writer once it is durable, any
other by whoever made it.
-/

namespace Deltat

open Lib Lib.Outcome Limits

/-- Why a hold ended, as its notification says. -/
inductive HoldEnd where
  /-- Given back by a DELETE. -/
  | released
  /-- Removed by the reaper once its expiry passed. -/
  | expired
  /-- Turned into a booking. -/
  | committed
  deriving DecidableEq

/-- What the event of an ended hold or booking does not say. -/
structure Ended where
  span : Span
  reason : Option HoldEnd
  bookingId : Option Ulid
  deriving DecidableEq

namespace Event

/-- What a subscriber may be told of an event: all of it except booking labels. -/
def broadcastable : Event → Event
  | bookingConfirmed id resourceId span _ => bookingConfirmed id resourceId span none
  | holdsCommitted commits => holdsCommitted (commits.map fun c => ⟨c.holdId, c.bookingId, c.resourceId, c.span, none⟩)
  | event => event

theorem broadcastable_idem (event : Event) : event.broadcastable.broadcastable = event.broadcastable := by
  cases event with
  | holdsCommitted commits => simp [broadcastable]
  | _ => rfl

theorem broadcastable_resourceId (ev : Event) : ev.broadcastable.resourceId? = ev.resourceId? := by cases ev <;> rfl

end Event

/-- What a subscriber is sent for one committed change. Its event is what subscribers may see. -/
structure Notice where
  event : Event
  ended : Option Ended
  stripped : event.broadcastable = event

namespace Notice

def of (event : Event) : Notice := ⟨event.broadcastable, none, event.broadcastable_idem⟩

def ending (event : Event) (ended : Ended) : Notice := ⟨event.broadcastable, some ended, event.broadcastable_idem⟩

/-- What is serialized for an event that ended a hold or booking. -/
inductive EndedPayload where
  | holdReleased (id resourceId : Ulid) (ended : Ended)
  | bookingCancelled (id resourceId : Ulid) (ended : Ended)

/-- The JSON library. -/
structure Json where
  ofEvent : Event → Except String String
  ofEnded : EndedPayload → Except String String

def payloadOf (json : Json) (event : Event) (ended : Option Ended) : String :=
  let text := match event, ended with
    | .holdReleased id resourceId, some ended => json.ofEnded (.holdReleased id resourceId ended)
    | .bookingCancelled id resourceId, some ended => json.ofEnded (.bookingCancelled id resourceId ended)
    | event, _ => json.ofEvent event
  text.toOption.getD ""

def payload (json : Json) (notice : Notice) : String := payloadOf json notice.event notice.ended

end Notice

/-- The broadcast hub as a sender sees it: the resources that have a channel, and what has been sent on each. -/
structure NoticeHub where
  channels : Finset Ulid
  sent : List (Ulid × Notice)

namespace NoticeHub

variable (hub : NoticeHub)

def subscribe (resourceId : Ulid) : NoticeHub := { hub with channels := insert resourceId hub.channels }

/-- Send a notification. No-op if nobody has listened. -/
def send (resourceId : Ulid) (notice : Notice) : NoticeHub :=
  if resourceId ∈ hub.channels then { hub with sent := hub.sent ++ [(resourceId, notice)] } else hub

/-- Remove a channel when its resource is deleted. -/
def remove (resourceId : Ulid) : NoticeHub := { hub with channels := hub.channels.erase resourceId }

end NoticeHub

/-- What subscribers are told once an event is durable, and on which channels. -/
structure Announcement where
  notice : Notice
  recipients : List Ulid

/-- The engine with its hub. -/
structure NotifyingEngine extends Engine where
  notify : NoticeHub

abbrev NotifyM := ExceptT EngineError (StateM NotifyingEngine)

/-- An operation whose refusal may carry a counter-offer. -/
abbrev NotifyOfferM := ExceptT Refused (StateM NotifyingEngine)

instance : MonadLift NotifyM NotifyOfferM := ⟨ExceptT.adapt Refused.ofError⟩

namespace NotifyingEngine

/-- A part of an operation that tells nobody. -/
def onEngine {ε α : Type} (x : ExceptT ε (StateM Engine) α) : ExceptT ε (StateM NotifyingEngine) α :=
  ExceptT.mk fun s =>
    let ended := exec x s.toEngine
    (ended.1, { s with toEngine := ended.2 })

/-- A chain of parents, as far as the depth limit allows. -/
def successors (store : InMemoryStore) : Nat → Option Ulid → List Ulid
  | _, none => []
  | 0, some _ => []
  | fuel + 1, some id => id :: successors store fuel (store.getParent id)

/-- Who hears about a change to a resource: the resource itself, then each ancestor up to the root. -/
def recipients (store : InMemoryStore) (resourceId : Ulid) (parentId : Option Ulid) : List Ulid :=
  resourceId :: successors store (maxHierarchyDepth + 1) parentId

/-- The parent that the guard of a resource shows. -/
def guardParent (store : InMemoryStore) (resourceId : Ulid) : Option Ulid :=
  (store.getResource resourceId).bind (·.parentId)

def send (announcement : Announcement) : NotifyM Unit :=
  modify fun s => { s with
    notify := announcement.recipients.foldl (·.send · announcement.notice) s.notify }

def publish (resourceId : Ulid) (parentId : Option Ulid) (notice : Notice) : NotifyM Unit := do
  send ⟨notice, recipients (← get).store resourceId parentId⟩

/-- A notice the log writer sends once the event it describes is durable. -/
def announcement (store : InMemoryStore) (resourceId : Ulid) (notice : Notice) : Announcement :=
  ⟨notice, recipients store resourceId (guardParent store resourceId)⟩

/-- Persist, apply and announce an event. -/
def persistAndApplyEnded (resourceId : Ulid) (event : Event) (ended : Option Ended) : NotifyM Unit := do
  onEngine (Engine.persistAndApply resourceId event)
  let notice := ended.elim (Notice.of event) (Notice.ending event)
  publish resourceId (guardParent (← get).store resourceId) notice

def persistAndApply (resourceId : Ulid) (event : Event) : NotifyM Unit := persistAndApplyEnded resourceId event none

/-- Queue, apply, and wait. The log writer announces what is durable. -/
def persistEarly (locked : List Ulid) (records : List Event) (announce : List Announcement) : NotifyM Unit := do
  onEngine (Engine.persistEarly locked records)
  announce.forM send

/-- `persistEarly` for one event on one resource, announced as it is. -/
def persistEarlyOne (resourceId : Ulid) (event : Event) : NotifyM Unit := do
  let announce := [announcement (← get).store resourceId (.of event)]
  persistEarly [resourceId] [event] announce

/-- Each single-resource event announced as it is. -/
def announceEach (store : InMemoryStore) (events : List Event) : List Announcement :=
  events.filterMap fun event => event.resourceId?.map fun resourceId => announcement store resourceId (.of event)

/-- What subscribers hear of a commit entry: the release names the commit and its booking. -/
def announceCommit (store : InMemoryStore) (commit : HoldCommit) : List Announcement :=
  [announcement store commit.resourceId
    (.ending (.holdReleased commit.holdId commit.resourceId) ⟨commit.span, some .committed, some commit.bookingId⟩),
   announcement store commit.resourceId
    (.of (.bookingConfirmed commit.bookingId commit.resourceId commit.span commit.label))]

/-! ## Operations -/

def createResource (id : Ulid) (parentId : Option Ulid) (name : Option String) (capacity : UInt32)
    (bufferAfter : Option Ms) : NotifyM Unit := do
  onEngine (Engine.createResource id parentId name capacity bufferAfter)
  publish id parentId (.of (.resourceCreated id parentId name capacity bufferAfter))

def batchCreateResources
    (resources : List (Ulid × Option Ulid × Option String × UInt32 × Option Ms)) : NotifyM Unit := do
  rejectIf (resources.length > maxBatchSize) (.limitExceeded "batch too large")
  resources.forM fun r => createResource r.1 r.2.1 r.2.2.1 r.2.2.2.1 r.2.2.2.2

/-- The parent is read before the resource goes; its channel goes last. -/
def deleteResource (id : Ulid) : NotifyM Unit := do
  let parentId := guardParent (← get).store id
  onEngine (Engine.deleteResource id)
  publish id parentId (.of (.resourceDeleted id))
  modify fun s => { s with notify := s.notify.remove id }

def updateResource (id : Ulid) (name : Option (Option String)) (capacity : Option UInt32)
    (bufferAfter : Option (Option Ms)) : NotifyM Unit := do
  Engine.checkUpdate name capacity bufferAfter
  let _ ← (← get).resource id
  persistAndApply id (.resourceUpdated id name capacity bufferAfter)

def addRule (id resourceId : Ulid) (span : Span) (blocking : Bool) : NotifyM Unit := do
  (← get).checkAddRule id resourceId span blocking
  persistAndApply resourceId (.ruleAdded id resourceId span blocking)

def batchAddRules (rules : List (Ulid × Ulid × Span × Bool)) : NotifyM Unit := do
  rejectIf (rules.length > maxBatchSize) (.limitExceeded "batch too large")
  rules.forM fun r => addRule r.1 r.2.1 r.2.2.1 r.2.2.2

def updateRule (id : Ulid) (span : Span) (blocking : Bool) : NotifyM Ulid := do
  let resourceId ← (← get).checkUpdateRule id span blocking
  persistAndApply resourceId (.ruleUpdated id resourceId span blocking)
  return resourceId

def removeRule (id : Ulid) : NotifyM Ulid := do
  let resourceId ← (← get).checkRemoval id IntervalKind.isRule
  persistAndApply resourceId (.ruleRemoved id resourceId)
  return resourceId

/-- The resource of an entity to remove, and the entity's span. -/
def resolveEnding (e : Engine) (id : Ulid) (isKind : IntervalKind → Bool) : Except EngineError (Ulid × Span) := do
  let (resourceId, guard) ← e.resolveEntity id
  let interval ← Engine.findIntervalOfKind guard id isKind
  return (resourceId, interval.span)

def removeHold (id : Ulid) (reason : HoldEnd) : NotifyM Ulid := do
  let (resourceId, span) ← resolveEnding (← get).toEngine id IntervalKind.isHold
  persistAndApplyEnded resourceId (.holdReleased id resourceId) (some ⟨span, some reason, none⟩)
  return resourceId

def releaseHold (id : Ulid) : NotifyM Ulid := removeHold id .released

def expireHold (id : Ulid) : NotifyM Ulid := removeHold id .expired

def cancelBooking (id : Ulid) : NotifyM Ulid := do
  let (resourceId, span) ← resolveEnding (← get).toEngine id IntervalKind.isBooking
  persistAndApplyEnded resourceId (.bookingCancelled id resourceId) (some ⟨span, none, none⟩)
  return resourceId

def placeHoldOffering (id resourceId : Ulid) (span : Span) (expiresAt : Ms) (offerLimit : Nat) :
    NotifyOfferM Unit := do
  let expiresAt ← (← get).checkHold id resourceId span expiresAt offerLimit
  onEngine (Engine.watchHoldExpiry expiresAt)
  persistEarlyOne resourceId (.holdPlaced id resourceId span expiresAt)

def confirmBookingOffering (id resourceId : Ulid) (span : Span) (label : Option String) (offerLimit : Nat) :
    NotifyOfferM Unit := do
  (← get).checkBooking id resourceId span label offerLimit
  persistEarlyOne resourceId (.bookingConfirmed id resourceId span label)

def commitHoldsOffering (commits : List (Ulid × Ulid × Option String)) (offerLimit : Nat) : NotifyOfferM Unit := do
  if commits.isEmpty then return ()
  let (resourceIds, entries) ← (← get).checkCommits commits offerLimit
  let announce := entries.flatMap (announceCommit (← get).store)
  persistEarly (Engine.ascending resourceIds) [.holdsCommitted entries] announce

def batchConfirmBookings (bookings : List (Ulid × Ulid × Span × Option String)) : NotifyM Unit := do
  if bookings.isEmpty then return ()
  (← get).checkBookings bookings
  let events := bookings.map fun b => Event.bookingConfirmed b.1 b.2.1 b.2.2.1 b.2.2.2
  let announce := announceEach (← get).store events
  persistEarly (Engine.ascending (bookings.map (·.2.1))) events announce

def batchPlaceHolds (holds : List (Ulid × Ulid × Span × Ms)) : NotifyM Unit := do
  let holds ← (← get).holdExpiries holds
  match (holds.map (·.2.2.2)).min? with
  | none => return ()
  | some earliest =>
      (← get).admitBatch (holds.map fun h => (h.1, h.2.1, h.2.2.1))
      onEngine (Engine.watchHoldExpiry earliest)
      let events := holds.map fun h => Event.holdPlaced h.1 h.2.1 h.2.2.1 h.2.2.2
      let announce := announceEach (← get).store events
      persistEarly (Engine.ascending (holds.map (·.2.1))) events announce

/-- An operation with what it answers: the resource of an entity it removed or changed. -/
def perform : Op → NotifyOfferM (Option Ulid)
  | .createResource id parentId name capacity bufferAfter => do
      createResource id parentId name capacity bufferAfter
      return none
  | .batchCreateResources resources => do
      batchCreateResources resources
      return none
  | .deleteResource id => do
      deleteResource id
      return none
  | .updateResource id name capacity bufferAfter => do
      updateResource id name capacity bufferAfter
      return none
  | .addRule id resourceId span blocking => do
      addRule id resourceId span.1 blocking
      return none
  | .batchAddRules rules => do
      batchAddRules (rules.map fun r => (r.1, r.2.1, r.2.2.1.1, r.2.2.2))
      return none
  | .updateRule id span blocking => do return some (← updateRule id span.1 blocking)
  | .removeRule id => do return some (← removeRule id)
  | .placeHold id resourceId span expiresAt offerLimit => do
      placeHoldOffering id resourceId span.1 expiresAt offerLimit
      return none
  | .batchPlaceHolds holds => do
      batchPlaceHolds (holds.map fun h => (h.1, h.2.1, h.2.2.1.1, h.2.2.2))
      return none
  | .releaseHold id => do return some (← releaseHold id)
  | .expireHold id => do return some (← expireHold id)
  | .commitHolds commits offerLimit => do
      commitHoldsOffering commits offerLimit
      return none
  | .confirmBooking id resourceId span label offerLimit => do
      confirmBookingOffering id resourceId span.1 label offerLimit
      return none
  | .batchConfirmBookings bookings => do
      batchConfirmBookings (bookings.map fun b => (b.1, b.2.1, b.2.2.1.1, b.2.2.2))
      return none
  | .cancelBooking id => do return some (← cancelBooking id)

/-! ## Runs -/

/-- A step of a running tenant. -/
inductive Step where
  | tick (ms : Nat)
  /-- The next flush will fail. -/
  | fault (what : String)
  | subscribe (resourceId : Ulid)
  | op (o : Op)
  | availability (resourceId : Ulid) (queryStart queryEnd : Ms) (minDurationMs : Option Ms)
  | availabilityMulti (resourceIds : List Ulid) (queryStart queryEnd : Ms) (minDurationMs : Option Ms)
  | multiAvailability (resourceIds : List Ulid) (queryStart queryEnd : Ms) (minAvailable : Nat)
      (minDurationMs : Option Ms)
  | gc (now retentionMs : Ms)
  | compact (order : List Ulid)

/-- What the caller of a step sees. -/
inductive Answer where
  | nothing
  | verdict (outcome : Except Refused (Option Ulid))
  | free (outcome : Except EngineError (List Span))
  | freeEach (outcome : Except EngineError (List (Ulid × Span)))

def step (s : NotifyingEngine) : Step → Answer × NotifyingEngine
  | .tick ms => (.nothing, { s with clock := s.clock + ms })
  | .fault what => (.nothing, { s with flushFault := some what })
  | .subscribe resourceId => (.nothing, { s with notify := s.notify.subscribe resourceId })
  | .op o => (.verdict (exec (perform o) s).1, (exec (perform o) s).2)
  | .availability resourceId queryStart queryEnd minDurationMs =>
      (.free (s.store.computeAvailability s.clock resourceId queryStart queryEnd minDurationMs), s)
  | .availabilityMulti resourceIds queryStart queryEnd minDurationMs =>
      (.freeEach (s.store.getAvailabilityMulti s.clock resourceIds queryStart queryEnd minDurationMs), s)
  | .multiAvailability resourceIds queryStart queryEnd minAvailable minDurationMs =>
      (.free (s.store.computeMultiAvailability s.clock resourceIds queryStart queryEnd minAvailable minDurationMs), s)
  | .gc now retentionMs => (.nothing, { s with toEngine := s.gcPastIntervals now retentionMs })
  | .compact order => (.nothing, { s with toEngine := s.compactWal order })

/-- The answers of a run, and the engine it leaves with all that has been sent. -/
def run : List Step → NotifyingEngine → List Answer × NotifyingEngine
  | [], s => ([], s)
  | first :: rest, s =>
      let here := s.step first
      let later := run rest here.2
      (here.1 :: later.1, later.2)

end NotifyingEngine

end Deltat
