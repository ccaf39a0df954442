import Deltat.Notices
import Deltat.TenantSteps

/-! # A tenant that tells of its changes

What a hold, a booking or a commit changes the log writer announces when it has flushed the record,
before it answers whoever queued it. Any other change is published by its caller, who has waited
for the flush and still holds the lock. A create or a delete publishes last of all.
-/

namespace Deltat

/-- A notice on its way to a channel, and the place in the log of the record that it tells of. -/
structure Sending where
  channel : Ulid
  notice : Notice
  place : Nat

namespace Announcement

def sendings (place : Nat) (a : Announcement) : List Sending := a.recipients.map fun channel => ⟨channel, a.notice, place⟩

/-- The announcements of records that are queued together, the first of them at a place in the log. -/
def placed : Nat → List (List Announcement) → List Sending
  | _, [] => []
  | place, first :: rest => first.flatMap (·.sendings place) ++ placed (place + 1) rest

end Announcement

/-- The announcements of a record that is applied early, where the guards show these parents. -/
def Event.announcements (store : InMemoryStore) (parent : Ulid → Option Ulid) : Event → List Announcement
  | .holdsCommitted commits => commits.flatMap fun c =>
      [⟨.ending (.holdReleased c.holdId c.resourceId) ⟨c.span, some .committed, some c.bookingId⟩,
          NotifyingEngine.recipients store c.resourceId (parent c.resourceId)⟩,
        ⟨.of (.bookingConfirmed c.bookingId c.resourceId c.span c.label),
          NotifyingEngine.recipients store c.resourceId (parent c.resourceId)⟩]
  | event => (event.resourceId?.map fun rid =>
      (⟨.of event, NotifyingEngine.recipients store rid (parent rid)⟩ : Announcement)).toList

/-- What a notice says of a change that ends a hold or a booking, read off the resource before it. -/
def ResourceState.ended (rs : ResourceState) (reason : HoldEnd) : Event → Option Ended
  | .holdReleased id _ => (rs.intervals.find? (·.id = id)).map fun i => ⟨i.span, some reason, none⟩
  | .bookingCancelled id _ => (rs.intervals.find? (·.id = id)).map fun i => ⟨i.span, none, none⟩
  | _ => none

namespace Tenant

variable (t : Tenant)

/-- What the log writer shall announce of each record that has passed the checks. -/
def announcements (request : Request.Prepared) (held : List Handle) (records : List Event) : List (List Announcement) :=
  if request.1.early then
    records.map (·.announcements t.memory.store fun rid => (t.guard held rid).bind (·.parentId))
  else []

/-- Who hears of a change to a resource that a request has locked. -/
def hearers (h : Handle) : List Ulid :=
  NotifyingEngine.recipients t.memory.store h.1 ((t.memory.read h).bind (·.parentId))

/-- The notice that a caller publishes of a change. A hold that it removes ends for the given reason. -/
def noticeOf (h : Handle) (change : Event) (reason : HoldEnd) : Notice :=
  ((t.memory.read h).bind (·.ended reason change)).elim (.of change) (.ending change)

end Tenant

/-- A tenant, and all that was and will be sent on the channels. -/
structure Announcing where
  tenant : Tenant
  /-- What has been sent, in order. Whoever listens on a channel then hears it. -/
  sent : List Sending
  /-- What the log writer shall announce of each record of a request, built under the locks. -/
  planned : TaskId → List (List Announcement)
  /-- What it announces of each queued command once that is flushed. -/
  announces : List (List Sending)
  /-- What it has flushed and not announced. -/
  announcing : List Sending
  /-- Whom it answers behind that. -/
  answering : List Sender
  /-- Where in the log the record is that somebody has queued. -/
  place : Sender → Nat
  /-- What a request has applied and not published. -/
  publishing : TaskId → List Sending
  /-- The same for a create or a delete. -/
  telling : List Sending

namespace Announcing

/-- A tenant on an engine, with nothing sent. -/
def on (e : Engine) : Announcing where
  tenant := .on e
  sent := []
  planned _ := []
  announces := []
  announcing := []
  answering := []
  place _ := 0
  publishing _ := []
  telling := []

variable (s : Announcing)

/-- Whether an answer of the log writer has been sent. -/
def hears (sender : Sender) : Bool := !s.answering.contains sender

def early : Task → Bool
  | .sent request _ _ => request.1.early
  | _ => false

/-- Whether a step of the tenant waits neither for an answer nor for notices to go out. -/
def mayTake : Tenant.Action → Bool
  | .flush .. | .handle _ => s.announcing.isEmpty && s.answering.isEmpty
  | .apply i => early (s.tenant.tasks i) || s.hears (.request i)
  | .release i => early (s.tenant.tasks i) || s.hears (.request i) && (s.publishing i).isEmpty
  | .fail i | .answer i => s.hears (.request i)
  | .create .. | .delete _ => s.telling.isEmpty
  | .finishTopology | .abandonTopology => s.hears .topology
  | .enterWindow | .finishCompaction => s.hears .compaction
  | _ => true

/-- Queue a command, with what the log writer shall announce of it. -/
def push (sender : Sender) (announce : List Sending) (after : Tenant) : Announcing :=
  { s with
    tenant := after
    announces := s.announces ++ [announce]
    place := Function.update s.place sender s.tenant.writer.handed.length }

/-- Tell of a create or a delete. -/
def tell (event : Event) (recipients : List Ulid) (after : Tenant) : Announcing :=
  { s with tenant := after, telling := Announcement.sendings (s.place .topology) ⟨.of event, recipients⟩ }

/-- What goes with a step of the tenant. A hold that it removes was released, or has expired. -/
def follow (a : Tenant.Action) (expired : Bool) (after : Tenant) : Announcing :=
  match a with
  | .check i .. =>
      match after.tasks i with
      | .sending request held records =>
          { s with tenant := after, planned := Function.update s.planned i (after.announcements request held records) }
      | _ => { s with tenant := after }
  | .send i => s.push (.request i) (Announcement.placed s.tenant.writer.handed.length (s.planned i)) after
  | .sendTopology => s.push .topology [] after
  | .beginCompaction | .submit => s.push .compaction [] after
  | .flush n ok => { s with
      tenant := after
      announces := s.announces.drop n
      announcing := if ok then (s.announces.take n).flatten else []
      answering := (s.tenant.writer.queue.take n).map WalCommand.sender }
  | .handle _ => { s with tenant := after, announces := s.announces.drop 1, answering := [.compaction] }
  | .apply i =>
      match s.tenant.tasks i with
      | .sent request _ ((h, change) :: _) =>
          if request.1.early then { s with tenant := after }
          else { s with
            tenant := after
            publishing := Function.update s.publishing i (s.publishing i ++ Announcement.sendings (s.place (.request i))
              ⟨s.tenant.noticeOf h change (if expired then .expired else .released), after.hearers h⟩) }
      | _ => { s with tenant := after }
  | .finishTopology =>
      match s.tenant.topology with
      | .creating id parentId name capacity bufferAfter _ =>
          s.tell (.resourceCreated id parentId name capacity bufferAfter)
            (NotifyingEngine.recipients after.memory.store id parentId) after
      | .deleting id _ =>
          s.tell (.resourceDeleted id) (NotifyingEngine.recipients after.memory.store id
            ((s.tenant.memory.store.getResource id).bind (·.parentId))) after
      | .idle => { s with tenant := after }
  | _ => { s with tenant := after }

/-! ## Steps -/

inductive Action where
  /-- A step of the tenant, which may be one of a hold that has expired. -/
  | tenant (a : Tenant.Action) (expired : Bool)
  /-- The log writer sends the next notice of what it has flushed. -/
  | announce
  /-- It answers the next of those whose records it has flushed. -/
  | reply
  /-- A caller sends the next notice of what it has applied. -/
  | publish (i : TaskId)
  /-- A create or a delete sends its next notice. -/
  | tell

def step (shards : Shards) (s : Announcing) : Action → Option Announcing
  | .tenant a expired => if s.mayTake a then (s.tenant.step shards a).map (s.follow a expired) else none
  | .announce =>
      match s.announcing with
      | first :: rest => some { s with sent := s.sent ++ [first], announcing := rest }
      | [] => none
  | .reply =>
      match s.announcing, s.answering with
      | [], _ :: rest => some { s with answering := rest }
      | _, _ => none
  | .publish i =>
      match s.publishing i with
      | first :: rest =>
          some { s with sent := s.sent ++ [first], publishing := Function.update s.publishing i rest }
      | [] => none
  | .tell =>
      match s.telling with
      | first :: rest => some { s with sent := s.sent ++ [first], telling := rest }
      | [] => none

end Announcing

end Deltat
