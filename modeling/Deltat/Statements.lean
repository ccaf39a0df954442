import Deltat.Operations
import Deltat.Selects
import Deltat.WriteStatements

/-! # Statements

A statement becomes a command, and the command is run on the engine. A write is answered by a tag
that counts its rows, a read by its rows, and a refusal by an error with its SQLSTATE, which may say
what else could be had.
-/

namespace Deltat

open Lib

/-! ## DELETE -/

/-- The commands that a DELETE can become. -/
inductive DeleteCommand where
  | deleteResource (id : Ulid)
  | deleteRule (id : Ulid)
  | deleteHold (id : Ulid)
  | deleteBooking (id : Ulid)
  deriving DecidableEq

/-- A command that the engine runs. -/
inductive EngineCommand where
  | write (command : WriteCommand)
  | delete (command : DeleteCommand)
  | select (command : Command)
  deriving DecidableEq

namespace Sql

structure Delete where
  tables : List TableWithJoins
  selection : Option Expr
  returning : Bool
  hasUsing : Bool
  orderBy : Bool
  limit : Bool
  /-- Whether more than one table is named before the FROM. -/
  multiTable : Bool

/-- One statement, as the SQL parser hands it over. -/
inductive Statement where
  | write (statement : WriteStatement)
  | delete (delete : Delete)
  | query (query : Query)
  | other (text : String)

section

variable (lib : WriteLibrary)

def deleteTableName (delete : Delete) : Except SqlError String :=
  match delete.tables with
  | first :: _ => tableFactorName lib.toLibrary first.relation
  | [] => .error (.parse "DELETE without table")

def parseDelete (delete : Delete) : Except SqlError DeleteCommand := do
  let table ← deleteTableName lib delete
  rejectUnsupportedWriteClauses delete.returning false
  if delete.hasUsing then .error (.unsupported "USING in a DELETE")
  else if delete.orderBy then .error (.unsupported "ORDER BY in a DELETE")
  else if delete.limit then .error (.unsupported "LIMIT in a DELETE")
  else if delete.multiTable then .error (.unsupported "a multi-table DELETE")
  else
    let id ← extractWhereId lib delete.selection
    match table with
    | "resources" => return .deleteResource id
    | "rules" => return .deleteRule id
    | "holds" => return .deleteHold id
    | "bookings" => return .deleteBooking id
    | table => .error (.unknownTable table)

def parseSql : Statement → Except SqlError EngineCommand
  | .write statement => (parseWrite lib statement).map .write
  | .delete delete => (parseDelete lib delete).map .delete
  | .query query => (parseSelect lib.toLibrary query).map .select
  | .other text => .error (.unsupported text)

end

end Sql

/-! ## Errors -/

namespace EngineError

def kind : EngineError → String
  | notFound _ => "not_found"
  | alreadyExists _ => "already_exists"
  | conflict _ => "conflict"
  | notCoveredByParent .. => "not_covered_by_parent"
  | closedBySchedule .. => "closed_by_schedule"
  | cycleDetected _ => "cycle_detected"
  | hasChildren _ => "has_children"
  | capacityExceeded _ => "capacity_exceeded"
  | limitExceeded _ => "limit_exceeded"
  | walError _ => "wal"

def sqlstate : EngineError → String
  | conflict _ | capacityExceeded _ => "40001"
  | notFound _ => "42704"
  | alreadyExists _ => "23505"
  | notCoveredByParent .. | closedBySchedule .. => "23514"
  | cycleDetected _ | hasChildren _ => "23503"
  | limitExceeded _ => "54000"
  | walError _ => "58030"

def isRetryable : EngineError → Bool
  | conflict _ | capacityExceeded _ => true
  | _ => false

/-- What is said of an error. The id of the allocation in the way is not. -/
def text (display : Ulid → String) : EngineError → String
  | notFound id => "not found: " ++ display id
  | alreadyExists id => "already exists: " ++ display id
  | conflict _ => "span is already allocated"
  | notCoveredByParent span uncovered => "rule [" ++ toString span.start ++ ", " ++ toString span.end ++
      ") not covered by parent availability; " ++ toString uncovered.length ++ " uncovered window(s)"
  | closedBySchedule span closed => "span [" ++ toString span.start ++ ", " ++ toString span.end ++
      ") is outside open windows or blocked; " ++ toString closed.length ++ " closed window(s)"
  | cycleDetected id => "cycle detected at resource: " ++ display id
  | hasChildren id => "cannot delete resource " ++ display id ++ ": has children"
  | capacityExceeded capacity => "capacity " ++ toString capacity ++ " exceeded: all slots occupied"
  | limitExceeded what => "limit exceeded: " ++ what
  | walError what => "WAL error: " ++ what

end EngineError

/-- Whether an offer says anything. -/
def CounterOffer.hasContent (offer : CounterOffer) : Bool := !offer.alternatives.isEmpty || offer.unscheduled

/-- The fields of the DETAIL of a refusal, of version 1. -/
structure RefusalDetail where
  kind : String
  sqlstate : String
  retrySameSpan : Bool
  reserved : Bool
  asOf : Ms
  resourceId : Option String
  requested : Span
  schedule : String
  alternatives : List Span
  deriving DecidableEq

/-- An error as it is sent to the client. -/
structure ErrorInfo where
  code : String
  message : String
  detail : Option RefusalDetail
  hint : Option String
  deriving DecidableEq

/-- An error that is not yet sent. -/
inductive WireError where
  | engine (cause : EngineError) (offer : Option CounterOffer) (resourceId : Option Ulid)
  | pg (info : ErrorInfo)
  deriving DecidableEq

namespace WireError

def ofError (cause : EngineError) : WireError := .engine cause none none

def refused (resourceId : Ulid) (r : Refused) : WireError := .engine r.error r.offer (some resourceId)

/-- A commit names holds and no resource. -/
def refusedCommit (r : Refused) : WireError := .engine r.error r.offer none

def spanErr (message : String) : WireError := .pg ⟨"22007", message, none, none⟩

def sqlErr (e : Sql.SqlError) : WireError := .pg ⟨"42601", e.text, none, none⟩

/-- The hint beside an offer of `n` alternatives. -/
def hint (n : Nat) : String :=
  if n = 0 then "This calendar publishes no opening hours, so there are no windows to list. It still accepts bookings; " ++
    "pick a time and place a hold."
  else toString n ++ " alternative span(s) in DETAIL (deltat v1). None is reserved; place a hold to keep one."

def engineErr (display : Ulid → String) (e : EngineError) (offer : Option CounterOffer) (resourceId : Option Ulid) : ErrorInfo :=
  match offer.filter (·.hasContent) with
  | some offer =>
      ⟨e.sqlstate, e.text display, some {
        kind := e.kind
        sqlstate := e.sqlstate
        retrySameSpan := e.isRetryable
        reserved := false
        asOf := offer.asOf
        resourceId := resourceId.map display
        requested := offer.requested
        schedule := if offer.unscheduled then "unscheduled" else "known"
        alternatives := offer.alternatives }, some (hint offer.alternatives.length)⟩
  | none => ⟨e.sqlstate, e.text display, none, none⟩

def toPg (display : Ulid → String) : WireError → ErrorInfo
  | engine cause offer resourceId => engineErr display cause offer resourceId
  | pg info => info

end WireError

/-! ## Execution -/

/-- The tag of a write: what it was, and of how many rows. -/
structure Tag where
  command : String
  rows : Nat
  deriving DecidableEq

inductive Response where
  | execution (tag : Tag)
  | query (rows : Answer)
  deriving DecidableEq

def Span.tryNew (start stop : Ms) : Except String Span :=
  if start < stop then .ok ⟨start, stop⟩ else .error "span start must be before end"

/-- A command on the engine, which answers or fails. -/
abbrev WireM := ExceptT WireError (StateM Engine)

namespace WireM

def ofEngine {α : Type} (x : EngineM α) : WireM α := ExceptT.adapt WireError.ofError x

def spanOf (start stop : Ms) : Except WireError Span := (Span.tryNew start stop).mapError WireError.spanErr

end WireM

open WireM

def WriteCommand.execute (counterOfferLimit : Nat) : WriteCommand → WireM Tag
  | insertResource r => do
      ofEngine (Engine.createResource r.id r.parentId r.name (.ofNat r.capacity) r.bufferAfter)
      return ⟨"INSERT", 1⟩
  | batchInsertResources resources => do
      ofEngine (Engine.batchCreateResources
        (resources.map fun r => (r.id, r.parentId, r.name, .ofNat r.capacity, r.bufferAfter)))
      return ⟨"INSERT", resources.length⟩
  | updateResource id changes => do
      ofEngine (Engine.updateResource id changes.name (changes.capacity.map .ofNat) changes.bufferAfter)
      return ⟨"UPDATE", 1⟩
  | insertRule r => do
      let span ← liftM (spanOf r.start r.stop)
      ofEngine (Engine.addRule r.id r.resourceId span r.blocking)
      return ⟨"INSERT", 1⟩
  | batchInsertRules rules => do
      let batch ← liftM (rules.mapM fun r => do return (r.id, r.resourceId, ← spanOf r.start r.stop, r.blocking))
      ofEngine (Engine.batchAddRules batch)
      return ⟨"INSERT", rules.length⟩
  | updateRule id start stop blocking => do
      let span ← liftM (spanOf start stop)
      ofEngine (Engine.updateRule id span blocking)
      return ⟨"UPDATE", 1⟩
  | insertHold r => do
      let span ← liftM (spanOf r.start r.stop)
      ExceptT.adapt (WireError.refused r.resourceId)
        (Engine.placeHoldOffering r.id r.resourceId span r.expiresAt counterOfferLimit)
      return ⟨"INSERT", 1⟩
  | batchInsertHolds holds => do
      let batch ← liftM (holds.mapM fun r => do return (r.id, r.resourceId, ← spanOf r.start r.stop, r.expiresAt))
      ofEngine (Engine.batchPlaceHolds batch)
      return ⟨"INSERT", holds.length⟩
  | insertBooking r => do
      let span ← liftM (spanOf r.start r.stop)
      ExceptT.adapt (WireError.refused r.resourceId)
        (Engine.confirmBookingOffering r.id r.resourceId span r.label counterOfferLimit)
      return ⟨"INSERT", 1⟩
  | batchInsertBookings bookings => do
      let batch ← liftM (bookings.mapM fun r => do return (r.id, r.resourceId, ← spanOf r.start r.stop, r.label))
      ofEngine (Engine.batchConfirmBookings batch)
      return ⟨"INSERT", bookings.length⟩
  | commitHold c => do
      ExceptT.adapt WireError.refusedCommit
        (Engine.commitHoldsOffering [(c.holdId, c.bookingId, c.label)] counterOfferLimit)
      return ⟨"UPDATE", 1⟩
  | commitHolds commits => do
      ExceptT.adapt WireError.refusedCommit
        (Engine.commitHoldsOffering (commits.map fun c => (c.holdId, c.bookingId, c.label)) counterOfferLimit)
      return ⟨"INSERT", commits.length⟩

def DeleteCommand.execute : DeleteCommand → WireM Tag
  | deleteResource id => do
      ofEngine (Engine.deleteResource id)
      return ⟨"DELETE", 1⟩
  | deleteRule id => do
      ofEngine (Engine.removeRule id)
      return ⟨"DELETE", 1⟩
  | deleteHold id => do
      ofEngine (Engine.releaseHold id)
      return ⟨"DELETE", 1⟩
  | deleteBooking id => do
      ofEngine (Engine.cancelBooking id)
      return ⟨"DELETE", 1⟩

def EngineCommand.execute (counterOfferLimit : Nat) : EngineCommand → WireM Response
  | write command => do return .execution (← command.execute counterOfferLimit)
  | delete command => do return .execution (← command.execute)
  | select command => do
      let e ← get
      let rows ← liftM ((command.execute e.store e.clock).mapError WireError.ofError)
      return .query rows

/-- Parse and execute one statement. -/
def Sql.runStatement (lib : WriteLibrary) (counterOfferLimit : Nat) (statement : Sql.Statement) : WireM Response := do
  let command ← liftM ((parseSql lib statement).mapError WireError.sqlErr)
  command.execute counterOfferLimit

end Deltat
