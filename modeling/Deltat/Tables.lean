import Deltat.Lib.Conversations
import Deltat.Statements

/-! # The tables of a tenant

To its clients a tenant is a database of four tables: resources, rules, holds and bookings. A write
changes them as SQL words it, by inserting, rewriting or dropping rows. The engine stores no table; its
tables are a view of the resources in memory.
-/

namespace Deltat

open Lib

/-! ## Rows -/

/-- The tables of rows that lie on a resource. -/
inductive EntryTable where
  | rules
  | holds
  | bookings
  deriving DecidableEq

/-- A row of one of them. -/
inductive TableRow where
  | rule (row : RuleInfo)
  | hold (row : HoldInfo)
  | booking (row : BookingInfo)
  deriving DecidableEq

namespace TableRow

def table : TableRow → EntryTable
  | rule _ => .rules
  | hold _ => .holds
  | booking _ => .bookings

def id : TableRow → Ulid
  | rule row => row.id
  | hold row => row.id
  | booking row => row.id

def resourceId : TableRow → Ulid
  | rule row => row.resourceId
  | hold row => row.resourceId
  | booking row => row.resourceId

/-- The row that an UPDATE of a rule makes of a row. -/
def setRule (id : Ulid) (start stop : Ms) (blocking : Bool) : TableRow → TableRow
  | rule row => if row.id = id then rule ⟨row.id, row.resourceId, start, stop, blocking⟩ else rule row
  | other => other

/-- A hold that is committed becomes a booking of its resource and span. -/
def commit (commits : List CommitRow) : TableRow → TableRow
  | hold row => (commits.find? (·.holdId = row.id)).elim (hold row) fun c =>
      booking ⟨c.bookingId, row.resourceId, row.start, row.stop, c.label⟩
  | other => other

/-- Whether garbage collection drops the row, at a buffer of its resource. -/
def Past (now cutoff buffer : Ms) : TableRow → Prop
  | rule _ => False
  | hold row => row.expiresAt ≤ now ∧ satAdd row.stop buffer < cutoff
  | booking row => satAdd row.stop buffer < cutoff

end TableRow

/-- The row that an UPDATE of a resource makes of a row. -/
def ResourceChanges.set (changes : ResourceChanges) (id : Ulid) (row : ResourceInfo) : ResourceInfo :=
  if row.id = id then { row with
    name := changes.name.getD row.name
    capacity := (changes.capacity.map .ofNat).getD row.capacity
    bufferAfter := changes.bufferAfter.getD row.bufferAfter }
  else row

/-! ## Tables -/

/-- The rows of a tenant. -/
structure Tables where
  resources : Set ResourceInfo
  entries : Set TableRow

/-- One change of the tables. -/
inductive Change where
  | insertResource (row : ResourceInfo)
  | updateResource (id : Ulid) (changes : ResourceChanges)
  | deleteResource (id : Ulid)
  | insert (rows : List TableRow)
  | updateRule (id : Ulid) (start stop : Ms) (blocking : Bool)
  | commit (commits : List CommitRow)
  | delete (table : EntryTable) (id : Ulid)
  | collect (now cutoff : Ms)

def Change.on (t : Tables) : Change → Tables
  | insertResource row => { t with resources := Set.insert row t.resources }
  | updateResource id changes => { t with resources := Set.image (changes.set id) t.resources }
  -- A resource goes with everything on it.
  | deleteResource id => ⟨{row ∈ t.resources | row.id ≠ id}, {row ∈ t.entries | row.resourceId ≠ id}⟩
  | insert rows => { t with entries := t.entries ∪ {row | row ∈ rows} }
  | updateRule id start stop blocking => { t with entries := Set.image (TableRow.setRule id start stop blocking) t.entries }
  | commit commits => { t with entries := Set.image (TableRow.commit commits) t.entries }
  | delete table id => { t with entries := {row ∈ t.entries | ¬ (row.table = table ∧ row.id = id)} }
  | collect now cutoff => { t with entries := {row ∈ t.entries |
      ∀ resource ∈ t.resources, resource.id = row.resourceId → ¬ row.Past now cutoff (resource.bufferAfter.getD 0)} }

/-- What a crash may leave of changes: those before some point, and some first rows of an insertion there. -/
inductive Change.Cut : List Change → List Change → Prop
  | nothing (changes : List Change) : Cut changes []
  | rows (rows : List TableRow) (n : Nat) (rest : List Change) : Cut (.insert rows :: rest) [.insert (rows.take n)]
  | whole (change : Change) {rest kept : List Change} : Cut rest kept → Cut (change :: rest) (change :: kept)

def ResourceRow.info (r : ResourceRow) : ResourceInfo := ⟨r.id, r.parentId, r.name, .ofNat r.capacity, r.bufferAfter⟩

def RuleRow.entry (r : RuleRow) : TableRow := .rule ⟨r.id, r.resourceId, r.start, r.stop, r.blocking⟩

/-- A hold expires no later than holds may be kept until. -/
def HoldRow.entry (latest : Ms) (r : HoldRow) : TableRow := .hold ⟨r.id, r.resourceId, r.start, r.stop, min r.expiresAt latest⟩

def BookingRow.entry (r : BookingRow) : TableRow := .booking ⟨r.id, r.resourceId, r.start, r.stop, r.label⟩

/-- The changes that a write asks for. Rows of resources and of rules are inserted one by one, all other
    rows at once. -/
def WriteCommand.changes (latest : Ms) : WriteCommand → List Change
  | insertResource r => [.insertResource r.info]
  | batchInsertResources resources => resources.map fun r => .insertResource r.info
  | updateResource id changes => [.updateResource id changes]
  | insertRule r => [.insert [r.entry]]
  | batchInsertRules rules => rules.map fun r => .insert [r.entry]
  | updateRule id start stop blocking => [.updateRule id start stop blocking]
  | insertHold r => [.insert [r.entry latest]]
  | batchInsertHolds holds => [.insert (holds.map (·.entry latest))]
  | insertBooking r => [.insert [r.entry]]
  | batchInsertBookings bookings => [.insert (bookings.map (·.entry))]
  | commitHold c => [.commit [c]]
  | commitHolds commits => [.commit commits]

def DeleteCommand.changes : DeleteCommand → List Change
  | deleteResource id => [.deleteResource id]
  | deleteRule id => [.delete .rules id]
  | deleteHold id => [.delete .holds id]
  | deleteBooking id => [.delete .bookings id]

/-! ## The view of the store -/

/-- The row that shows an interval on a resource. -/
def Interval.entry (resourceId : Ulid) (i : Interval) : TableRow :=
  match i.kind with
  | .nonBlocking => .rule ⟨i.id, resourceId, i.span.start, i.span.end, false⟩
  | .blocking => .rule ⟨i.id, resourceId, i.span.start, i.span.end, true⟩
  | .hold expiresAt => .hold ⟨i.id, resourceId, i.span.start, i.span.end, expiresAt⟩
  | .booking label => .booking ⟨i.id, resourceId, i.span.start, i.span.end, label⟩

namespace InMemoryStore

/-- An interval is on a resource. -/
def Has (s : InMemoryStore) (r : Ulid) (i : Interval) : Prop := ∃ rs, s.getResource r = some rs ∧ i ∈ rs.intervals

def tables (s : InMemoryStore) : Tables where
  resources := {row | ∃ id, s.resourceInfo id = some row}
  entries := {row | ∃ r i, s.Has r i ∧ i.entry r = row}

end InMemoryStore

end Deltat
