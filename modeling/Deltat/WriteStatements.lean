import Deltat.Sql

/-! # INSERT and UPDATE

A write, as the SQL parser hands it over, becomes a command. The rows of an INSERT name their
values by a column list or by position, and every table has its own way of reading a row.
-/

namespace Deltat

open Limits

/-! ## Commands -/

structure ResourceRow where
  id : Ulid
  parentId : Option Ulid
  name : Option String
  capacity : Nat
  bufferAfter : Option Ms
  deriving DecidableEq

structure RuleRow where
  id : Ulid
  resourceId : Ulid
  start : Ms
  stop : Ms
  blocking : Bool
  deriving DecidableEq

structure HoldRow where
  id : Ulid
  resourceId : Ulid
  start : Ms
  stop : Ms
  expiresAt : Ms
  deriving DecidableEq

structure BookingRow where
  id : Ulid
  resourceId : Ulid
  start : Ms
  stop : Ms
  label : Option String
  deriving DecidableEq

structure CommitRow where
  holdId : Ulid
  bookingId : Ulid
  label : Option String
  deriving DecidableEq

/-- The fields that an UPDATE of a resource mentions. `some none` sets NULL. -/
structure ResourceChanges where
  name : Option (Option String)
  capacity : Option Nat
  bufferAfter : Option (Option Ms)
  deriving DecidableEq

/-- The commands that an INSERT or an UPDATE can become. -/
inductive WriteCommand where
  | insertResource (row : ResourceRow)
  | batchInsertResources (resources : List ResourceRow)
  | updateResource (id : Ulid) (changes : ResourceChanges)
  | insertRule (row : RuleRow)
  | batchInsertRules (rules : List RuleRow)
  | updateRule (id : Ulid) (start stop : Ms) (blocking : Bool)
  | insertHold (row : HoldRow)
  | batchInsertHolds (holds : List HoldRow)
  | insertBooking (row : BookingRow)
  | batchInsertBookings (bookings : List BookingRow)
  | commitHold (row : CommitRow)
  | commitHolds (commits : List CommitRow)
  deriving DecidableEq

namespace Sql

def SqlError.text : SqlError → String
  | .parse s => "parse error: " ++ s
  | .unsupported s => "unsupported: " ++ s
  | .unknownTable t => "unknown table: " ++ t
  | .wrongArity t expected got => t ++ ": expected " ++ toString expected ++ " values, got " ++ toString got
  | .missingFilter column => "missing filter: " ++ column

/-! ## The parsed statement -/

inductive InsertBody where
  | values (rows : List (List Expr))
  | other

structure Insert where
  /-- The name, if the table is a plain one. -/
  table : Option (List ObjectNamePart)
  columns : List String
  source : Option InsertBody
  returning : Bool
  on : Bool

structure Assignment where
  /-- The name, if the target is one column. -/
  target : Option (List ObjectNamePart)
  value : Expr

structure Update where
  table : TableFactor
  assignments : List Assignment
  selection : Option Expr
  returning : Bool
  hasFrom : Bool
  hasOr : Bool

inductive WriteStatement where
  | insert (insert : Insert)
  | update (update : Update)

/-- The library functions, and whether a text is a nonzero double, if it is a double. -/
structure WriteLibrary extends Library where
  f64NonZero : String → Option Bool

section

variable (lib : WriteLibrary)

/-! ## Values -/

def parseUlid (expr : Expr) : Except SqlError Ulid := parseUlidExpr lib.toLibrary expr

def parseUlidOrNull (expr : Expr) : Except SqlError (Option Ulid) :=
  match extractValue expr with
  | some .null => .ok none
  | some (.singleQuotedString s) | some (.number s _) =>
      ((lib.ulidFromString s).mapError fun e => .parse ("bad ULID: " ++ e)).map some
  | some v => .error (.parse ("expected string or NULL, got " ++ lib.debugValue v))
  | none => .error (.parse ("expected value, got " ++ lib.debugExpr expr))

def parseMs (expr : Expr) : Except SqlError Ms := parseI64Expr lib.toLibrary expr

def parseU32 (expr : Expr) : Except SqlError Nat := do
  let v ← parseI64Expr lib.toLibrary expr
  if 0 ≤ v ∧ v ≤ (u32Max : Int) then return v.toNat else .error (.parse (toString v ++ " out of u32 range"))

def parseStringOrNull (expr : Expr) : Except SqlError (Option String) :=
  match extractValue expr with
  | some .null => .ok none
  | some (.singleQuotedString s) => .ok (some s)
  | some v => .error (.parse ("expected string or NULL, got " ++ lib.debugValue v))
  | none => .error (.parse ("expected value, got " ++ lib.debugExpr expr))

def parseI64OrNull (expr : Expr) : Except SqlError (Option Ms) :=
  match extractValue expr with
  | some .null => .ok none
  | _ => (parseI64Expr lib.toLibrary expr).map some

def parseBool (expr : Expr) : Except SqlError Bool :=
  match extractValue expr with
  | some (.boolean b) => .ok b
  | some (.singleQuotedString s) =>
      match lib.toLowercase s with
      | "true" | "t" | "1" => .ok true
      | "false" | "f" | "0" => .ok false
      | _ => .error (.parse ("bad bool: " ++ s))
  | some (.number n _) => .ok ((lib.f64NonZero n).getD (n != "0"))
  | some v => .error (.parse ("expected bool, got " ++ lib.debugValue v))
  | none => .error (.parse ("expected value, got " ++ lib.debugExpr expr))

/-! ## Rows -/

section Rows

variable (values : List Expr) (columns : List String)

/-- A value of the row, if the row is long enough. -/
def cell (index : Option Nat) : Option Expr := index.bind (values[·]?)

def position (name : String) : Option Nat := columns.findIdx? (· == name)

/-- The value of a column: where the list declares it, or without a list where it stands by default. -/
def colValue (name : String) (positional : Nat) : Option Expr :=
  cell values (if columns.isEmpty then some positional else position columns name)

def required (error : SqlError) (value : Option Expr) : Except SqlError Expr := value.elim (.error error) .ok

/-- NULL for a value that the row does not have. -/
def parseOptional {α : Type} (parse : Expr → Except SqlError (Option α)) (value : Option Expr) : Except SqlError (Option α) :=
  value.elim (.ok none) parse

def checkColumnArity (table : String) : Except SqlError Unit :=
  if !columns.isEmpty && values.length != columns.length then .error (.wrongArity table columns.length values.length)
  else .ok ()

def rejectUnknownInsertColumns (table : String) (known : List String) : Except SqlError Unit :=
  match columns.find? (!known.contains ·) with
  | some unknown => .error (.parse ("unknown " ++ table ++ " column: " ++ unknown ++ "; columns are " ++
      String.intercalate ", " known))
  | none => .ok ()

/-- The position of a declared column. -/
def colIdx (name : String) : Option Nat := if columns.isEmpty then none else position columns name

/-- A value that a row without a column list has at a position. -/
def positionalValue (n : Nat) : Option Expr := if columns.isEmpty && n < values.length then values[n]? else none

def parseResourceRow : Except SqlError ResourceRow :=
  if values.isEmpty then .error (.wrongArity "resources" 1 0)
  else do
    checkColumnArity values columns "resources"
    rejectUnknownInsertColumns columns "resources" ["id", "parent_id", "name", "capacity", "buffer_after"]
    let first ← required (.wrongArity "resources" 1 values.length) (cell values ((colIdx columns "id").or (some 0)))
    let id ← parseUlid lib first
    let parentId ← parseOptional (parseUlidOrNull lib)
      (cell values ((colIdx columns "parent_id").or (if columns.isEmpty && 2 ≤ values.length then some 1 else none)))
    let name ← parseOptional (parseStringOrNull lib) (cell values (colIdx columns "name"))
    let capacity ← ((cell values (colIdx columns "capacity")).or (positionalValue values columns 2)).elim (.ok 1) (parseU32 lib)
    let bufferAfter ← parseOptional (parseI64OrNull lib)
      ((cell values (colIdx columns "buffer_after")).or (positionalValue values columns 3))
    return ⟨id, parentId, name, capacity, bufferAfter⟩

/-- A row of five required values, the last of which is the table's own. -/
def parseSpanRow {α β : Type} (table last : String) (parseLast : Expr → Except SqlError α)
    (row : Ulid → Ulid → Ms → Ms → α → β) : Except SqlError β := do
  let get (name : String) (positional : Nat) : Except SqlError Expr :=
    required (.wrongArity table 5 values.length) (colValue values columns name positional)
  checkColumnArity values columns table
  rejectUnknownInsertColumns columns table ["id", "resource_id", "start", "end", last]
  let id ← get "id" 0 >>= parseUlid lib
  let resourceId ← get "resource_id" 1 >>= parseUlid lib
  let start ← get "start" 2 >>= parseMs lib
  let stop ← get "end" 3 >>= parseMs lib
  let own ← get last 4 >>= parseLast
  return row id resourceId start stop own

def parseRuleRow : Except SqlError RuleRow :=
  parseSpanRow lib values columns "rules" "blocking" (parseBool lib) RuleRow.mk

def parseHoldRow : Except SqlError HoldRow :=
  parseSpanRow lib values columns "holds" "expires_at" (parseMs lib) HoldRow.mk

def missingColumn (name : String) : SqlError := .parse ("bookings INSERT missing required column: " ++ name)

def parseBookingRow : Except SqlError BookingRow := do
  let get (name : String) (positional : Nat) : Except SqlError Expr :=
    required (missingColumn name) (colValue values columns name positional)
  checkColumnArity values columns "bookings"
  rejectUnknownInsertColumns columns "bookings" ["id", "resource_id", "start", "end", "label"]
  if columns.isEmpty && values.length < 4 then .error (.wrongArity "bookings" 4 values.length)
  else
    let label ← parseOptional (parseStringOrNull lib) (colValue values columns "label" 4)
    let id ← get "id" 0 >>= parseUlid lib
    let resourceId ← get "resource_id" 1 >>= parseUlid lib
    let start ← get "start" 2 >>= parseMs lib
    let stop ← get "end" 3 >>= parseMs lib
    return ⟨id, resourceId, start, stop, label⟩

/-- A booking that takes its resource and span from a hold. The column list is there, since it is
    what routes the row here. -/
def parseHoldBookingRow : Except SqlError CommitRow := do
  let named (name : String) : Option Expr := cell values (position columns name)
  let get (name : String) : Except SqlError Expr := required (missingColumn name) (named name)
  checkColumnArity values columns "bookings"
  match columns.find? (["resource_id", "start", "end"].contains ·) with
  | some taken => .error (.parse (taken ++ " with hold_id: a booking made from a hold takes the hold's resource and span; " ++
      "columns are id, hold_id, label"))
  | none =>
      rejectUnknownInsertColumns columns "bookings" ["id", "hold_id", "label"]
      let label ← parseOptional (parseStringOrNull lib) (named "label")
      let holdId ← get "hold_id" >>= parseUlid lib
      let bookingId ← get "id" >>= parseUlid lib
      return ⟨holdId, bookingId, label⟩

end Rows

/-! ## INSERT -/

def objectName (name : Option (List ObjectNamePart)) (empty unsupported : String) : Except SqlError String :=
  match name with
  | some name => (objectNameLast lib.toLibrary name).elim (.error (.parse empty)) .ok
  | none => .error (.parse unsupported)

def insertTableName (insert : Insert) : Except SqlError String :=
  objectName lib insert.table "empty table name" "unsupported table object in INSERT"

def extractColumnNames (insert : Insert) : List String := insert.columns.map lib.toLowercase

def rejectUnsupportedWriteClauses (returning onConflict : Bool) : Except SqlError Unit :=
  if returning then .error (.unsupported ("RETURNING; a deltat write replies with a command tag and no rows, so read the row " ++
    "back with a SELECT"))
  else if onConflict then .error (.unsupported ("ON CONFLICT; a reused entity id is rejected outright, so there is no conflict " ++
    "to resolve. Mint a fresh id instead"))
  else .ok ()

def extractAllInsertRows (insert : Insert) : Except SqlError (List (List Expr)) :=
  match insert.source with
  | none => .error (.parse "no VALUES")
  | some (.values rows) =>
      if rows.isEmpty then .error (.parse "empty VALUES")
      else if rows.length > maxBatchSize then
        .error (.parse ("INSERT too large: " ++ toString rows.length ++ " rows (max " ++ toString maxBatchSize ++ ")"))
      else .ok rows
  | some .other => .error (.parse "expected VALUES")

/-- Parse every row, naming the row an error came from when there is more than one. -/
def parseRows {α : Type} (rows : List (List Expr)) (parse : List Expr → Except SqlError α) : Except SqlError (List α) :=
  rows.zipIdx.mapM fun row => (parse row.1).mapError fun e =>
    if rows.length > 1 then .parse ("row " ++ toString row.2 ++ ": " ++ e.text) else e

/-- One row keeps its own command. -/
def singleRow {α : Type} (single : α → WriteCommand) (batch : List α → WriteCommand) : List α → WriteCommand
  | [row] => single row
  | rows => batch rows

def parseInsert (insert : Insert) : Except SqlError WriteCommand := do
  let table ← insertTableName lib insert
  let columns := extractColumnNames lib insert
  let rows {α : Type} (parse : List Expr → List String → Except SqlError α) : Except SqlError (List α) := do
    parseRows (← extractAllInsertRows insert) fun row => parse row columns
  rejectUnsupportedWriteClauses insert.returning insert.on
  match table with
  | "resources" => return singleRow .insertResource .batchInsertResources (← rows (parseResourceRow lib))
  | "rules" => return singleRow .insertRule .batchInsertRules (← rows (parseRuleRow lib))
  | "holds" => return singleRow .insertHold .batchInsertHolds (← rows (parseHoldRow lib))
  | "bookings" =>
      if columns.any (· == "hold_id") then return .commitHolds (← rows (parseHoldBookingRow lib))
      else return singleRow .insertBooking .batchInsertBookings (← rows (parseBookingRow lib))
  | table => .error (.unknownTable table)

/-! ## UPDATE -/

def extractWhereId : Option Expr → Except SqlError Ulid
  | some (.binaryOp left .eq right) =>
      if exprColumnName lib.toLibrary left = some "id" then parseUlid lib right else .error (.missingFilter "id")
  | _ => .error (.missingFilter "id")

def assignmentColumnName (a : Assignment) : Except SqlError String :=
  objectName lib a.target "empty assignment target" "unsupported assignment target"

def unsupportedAssignment (table column : String) (assignable : List String) : SqlError :=
  .unsupported ("\x60" ++ column ++ "\x60 is not assignable on " ++ table ++ "; assignable columns are " ++
    String.intercalate ", " assignable)

def assignResource (changes : ResourceChanges) (a : Assignment) : Except SqlError ResourceChanges := do
  match ← assignmentColumnName lib a with
  | "name" => return { changes with name := some (← parseStringOrNull lib a.value) }
  | "capacity" => return { changes with capacity := some (← parseU32 lib a.value) }
  | "buffer_after" => return { changes with bufferAfter := some (← parseI64OrNull lib a.value) }
  | other => .error (unsupportedAssignment "resources" other ["name", "capacity", "buffer_after"])

/-- What an UPDATE of a rule has assigned so far. -/
structure RuleChanges where
  start : Option Ms
  stop : Option Ms
  blocking : Option Bool

def assignRule (changes : RuleChanges) (a : Assignment) : Except SqlError RuleChanges := do
  match ← assignmentColumnName lib a with
  | "start" => return { changes with start := some (← parseMs lib a.value) }
  | "end" => return { changes with stop := some (← parseMs lib a.value) }
  | "blocking" => return { changes with blocking := some (← parseBool lib a.value) }
  | other => .error (unsupportedAssignment "rules" other ["start", "end", "blocking"])

/-- What an UPDATE of a hold has assigned so far. -/
structure HoldChanges where
  bookingId : Option Ulid
  label : Option String

def assignHold (changes : HoldChanges) (a : Assignment) : Except SqlError HoldChanges := do
  match ← assignmentColumnName lib a with
  | "booking_id" => return { changes with bookingId := some (← parseUlid lib a.value) }
  | "label" => return { changes with label := ← parseStringOrNull lib a.value }
  | other => .error (unsupportedAssignment "holds" other ["booking_id", "label"])

def assigned {α : Type} (column : String) (value : Option α) : Except SqlError α := value.elim (.error (.missingFilter column)) .ok

def parseUpdate (table : TableFactor) (assignments : List Assignment) (selection : Option Expr) :
    Except SqlError WriteCommand := do
  let tableName ← tableFactorName lib.toLibrary table
  let id ← extractWhereId lib selection
  match tableName with
  | "resources" => return .updateResource id (← assignments.foldlM (assignResource lib) ⟨none, none, none⟩)
  | "rules" =>
      let changes ← assignments.foldlM (assignRule lib) ⟨none, none, none⟩
      let start ← assigned "start" changes.start
      let stop ← assigned "end" changes.stop
      let blocking ← assigned "blocking" changes.blocking
      return .updateRule id start stop blocking
  | "holds" =>
      let changes ← assignments.foldlM (assignHold lib) ⟨none, none⟩
      let bookingId ← assigned "booking_id" changes.bookingId
      return .commitHold ⟨id, bookingId, changes.label⟩
  | tableName => .error (.unsupported ("UPDATE " ++ tableName))

def parseWrite : WriteStatement → Except SqlError WriteCommand
  | .insert insert => parseInsert lib insert
  | .update update => do
      rejectUnsupportedWriteClauses update.returning false
      if update.hasFrom then .error (.unsupported "FROM in an UPDATE")
      else if update.hasOr then .error (.unsupported "an OR clause in an UPDATE")
      else parseUpdate lib update.table update.assignments update.selection

end

end Sql

end Deltat
