import Mathlib.Data.List.Basic
import Deltat.Model

/-! # SELECT

A statement, as the SQL parser hands it over, becomes a command. Each table has its own way of
collecting the conjuncts of a WHERE clause, and refuses those it does not know.
-/

namespace Deltat

namespace Limits

def maxInClauseIds : Nat := 1000

end Limits

open Limits

/-! ## Commands -/

inductive SpanColumn where
  | start
  | «end»
  deriving DecidableEq

inductive SpanOp where
  | lt
  | lte
  | gt
  | gte
  | eq
  deriving DecidableEq

/-- A comparison against one bound of a span. -/
structure SpanFilter where
  column : SpanColumn
  op : SpanOp
  value : Ms
  deriving DecidableEq

def SpanFilter.matches (f : SpanFilter) (start stop : Ms) : Bool :=
  let lhs := match f.column with
    | .start => start
    | .end => stop
  match f.op with
  | .lt => lhs < f.value
  | .lte => lhs ≤ f.value
  | .gt => lhs > f.value
  | .gte => lhs ≥ f.value
  | .eq => lhs = f.value

def spanFiltersMatch (filters : List SpanFilter) (start stop : Ms) : Bool := filters.all (·.matches start stop)

inductive ResourceFilter where
  | all
  | roots
  | childrenOf (id : Ulid)
  | id (id : Ulid)
  deriving DecidableEq

/-- The commands that a SELECT can become. -/
inductive Command where
  | selectResources (filter : ResourceFilter)
  | selectRules (resourceId : Ulid)
  | selectBookings (resourceId : Ulid) (filters : List SpanFilter)
  | selectBookingsMulti (resourceIds : List Ulid) (filters : List SpanFilter)
  | selectHolds (resourceId : Ulid) (filters : List SpanFilter)
  | selectHoldsMulti (resourceIds : List Ulid) (filters : List SpanFilter)
  | selectAvailability (resourceId : Ulid) (start stop : Ms) (minDuration : Option Ms)
  | selectAvailabilityMulti (resourceIds : List Ulid) (start stop : Ms) (minDuration : Option Ms)
  | selectMultiAvailability (resourceIds : List Ulid) (start stop : Ms) (minAvailable : Nat) (minDuration : Option Ms)
  deriving DecidableEq

namespace Sql

inductive SqlError where
  | parse (text : String)
  | unsupported (text : String)
  | unknownTable (table : String)
  | wrongArity (table : String) (expected got : Nat)
  | missingFilter (column : String)
  deriving DecidableEq

/-! ## The parsed statement -/

inductive Value where
  | singleQuotedString (s : String)
  | number (s : String) (long : Bool)
  | boolean (b : Bool)
  | null
  | other (text : String)
  deriving DecidableEq

inductive BinaryOperator where
  | and
  | eq
  | lt
  | ltEq
  | gt
  | gtEq
  | other (symbol : String)
  deriving DecidableEq

inductive Expr where
  | identifier (value : String)
  | compoundIdentifier (parts : List String)
  | value (v : Value)
  | minus (expr : Expr)
  | binaryOp (left : Expr) (op : BinaryOperator) (right : Expr)
  | inList (expr : Expr) (list : List Expr) (negated : Bool)
  | isNull (expr : Expr)
  | nested (expr : Expr)
  | other (text : String)

inductive ObjectNamePart where
  | identifier (value : String)
  | other

inductive TableFactor where
  | table (name : List ObjectNamePart)
  | other

structure TableWithJoins where
  relation : TableFactor
  joined : Bool

structure Select where
  wildcard : Bool
  tables : List TableWithJoins
  selection : Option Expr
  distinct : Bool
  having : Bool
  groupBy : Bool

structure Query where
  /-- The SELECT, if the query is one. -/
  body : Option Select
  orderBy : Bool
  limitClause : Bool
  fetch : Bool
  withClause : Bool
  locks : Bool

/-- What the parser of ids and the printers of the SQL parser do. -/
structure Library where
  ulidFromString : String → Except String Ulid
  toLowercase : String → String
  displayExpr : Expr → String
  displayOperator : BinaryOperator → String
  debugExpr : Expr → String
  debugValue : Value → String

/-! ## Values -/

inductive IntErrorKind where
  | empty
  | invalidDigit
  | posOverflow
  | negOverflow
  deriving DecidableEq

def IntErrorKind.text : IntErrorKind → String
  | empty => "cannot parse integer from empty string"
  | invalidDigit => "invalid digit found in string"
  | posOverflow => "number too large to fit in target type"
  | negOverflow => "number too small to fit in target type"

/-- One more digit of a number, whose sign says on which side of zero it grows. -/
def pushDigit (negative : Bool) (n : Ms) (c : Char) : Except IntErrorKind Ms :=
  if c.isDigit then
    let digit : Ms := (c.toNat - '0'.toNat : Nat)
    let next := if negative then 10 * n - digit else 10 * n + digit
    if next < i64Min then .error .negOverflow
    else if i64Max < next then .error .posOverflow
    else .ok next
  else .error .invalidDigit

def parseI64 (s : String) : Except IntErrorKind Ms :=
  match s.toList with
  | [] => .error .empty
  | ['-'] | ['+'] => .error .invalidDigit
  | '-' :: digits => digits.foldlM (pushDigit true) 0
  | '+' :: digits | digits => digits.foldlM (pushDigit false) 0

section

variable (lib : Library)

def exprColumnName : Expr → Option String
  | .identifier value => some (lib.toLowercase value)
  | .compoundIdentifier parts => parts.getLast?.map lib.toLowercase
  | _ => none

def extractValue : Expr → Option Value
  | .value v => some v
  | _ => none

def parseUlidExpr (expr : Expr) : Except SqlError Ulid :=
  match extractValue expr with
  | some (.singleQuotedString s) | some (.number s _) =>
      (lib.ulidFromString s).mapError fun e => .parse ("bad ULID: " ++ e)
  | some v => .error (.parse ("expected string, got " ++ lib.debugValue v))
  | none => .error (.parse ("expected value, got " ++ lib.debugExpr expr))

def parseI64Expr : Expr → Except SqlError Ms
  | .value (.number s _) | .value (.singleQuotedString s) =>
      (parseI64 s).mapError fun e => .parse ("bad i64: " ++ e.text)
  | .value v => .error (.parse ("expected number, got " ++ lib.debugValue v))
  | .minus expr => do
      let n ← parseI64Expr expr
      if n = i64Min then .error (.parse "integer literal out of range") else return -n
  | expr => .error (.parse ("expected value, got " ++ lib.debugExpr expr))

/-- The ids of an IN list, which has a limit. -/
def parseInList (list : List Expr) : Except SqlError (List Ulid) :=
  if list.length > maxInClauseIds then
    .error (.parse ("IN clause too large: " ++ toString list.length ++ " IDs (max " ++ toString maxInClauseIds ++ ")"))
  else list.mapM (parseUlidExpr lib)

/-! ## Rules -/

def collectSingleResourceId : Expr → Option Ulid → Except SqlError (Option Ulid)
  | .binaryOp left .and right, found => do
      let found ← collectSingleResourceId left found
      collectSingleResourceId right found
  | .nested inner, found => collectSingleResourceId inner found
  | .binaryOp left .eq right, _ =>
      if exprColumnName lib left = some "resource_id" then do
        let id ← parseUlidExpr lib right
        return some id
      else .error (.unsupported ("filter in WHERE clause: " ++ lib.displayExpr (.binaryOp left .eq right)))
  | other, _ => .error (.unsupported ("filter in WHERE clause: " ++ lib.displayExpr other))

def extractResourceIdFilter (selection : Option Expr) : Except SqlError Ulid :=
  match selection with
  | none => .error (.missingFilter "resource_id")
  | some selection => do
      match ← collectSingleResourceId lib selection none with
      | some id => return id
      | none => .error (.missingFilter "resource_id")

/-! ## Bookings and holds -/

/-- A comparison on a span column, or nothing if it is not understood. -/
def spanFilterFrom (left : Expr) (op : BinaryOperator) (right : Expr) : Option SpanFilter := do
  let column ← match ← exprColumnName lib left with
    | "start" => some SpanColumn.start
    | "end" => some SpanColumn.end
    | _ => none
  let op ← match op with
    | .lt => some SpanOp.lt
    | .ltEq => some SpanOp.lte
    | .gt => some SpanOp.gt
    | .gtEq => some SpanOp.gte
    | .eq => some SpanOp.eq
    | _ => none
  let value ← (parseI64Expr lib right).toOption
  return ⟨column, op, value⟩

/-- Collect what a conjunct says. -/
def collectConjunct (ids : List Ulid) (filters : List SpanFilter) : Expr → Except SqlError (List Ulid × List SpanFilter)
  | .binaryOp left .eq right =>
      if exprColumnName lib left = some "resource_id" then do
        let id ← parseUlidExpr lib right
        return (ids ++ [id], filters)
      else collectComparison left .eq right
  | .binaryOp left .lt right => collectComparison left .lt right
  | .binaryOp left .ltEq right => collectComparison left .ltEq right
  | .binaryOp left .gt right => collectComparison left .gt right
  | .binaryOp left .gtEq right => collectComparison left .gtEq right
  | .inList column list negated =>
      if !negated && exprColumnName lib column = some "resource_id" then do
        let listed ← parseInList lib list
        return (ids ++ listed, filters)
      else .error (.unsupported ("filter in WHERE clause: " ++ lib.displayExpr (.inList column list negated)))
  | other => .error (.unsupported ("filter in WHERE clause: " ++ lib.displayExpr other))
where
  collectComparison (left : Expr) (op : BinaryOperator) (right : Expr) :
      Except SqlError (List Ulid × List SpanFilter) :=
    match spanFilterFrom lib left op right with
    | some f => .ok (ids, filters ++ [f])
    | none => .error (.unsupported ("filter on " ++ (exprColumnName lib left).getD "expression"))

def collectResourceIds : Expr → List Ulid → List SpanFilter → Except SqlError (List Ulid × List SpanFilter)
  | .binaryOp left .and right, ids, filters => do
      let (ids, filters) ← collectResourceIds left ids filters
      collectResourceIds right ids filters
  | .nested inner, ids, filters => collectResourceIds inner ids filters
  | leaf, ids, filters => collectConjunct lib ids filters leaf

def extractResourceIdsFilter (selection : Option Expr) : Except SqlError (List Ulid × List SpanFilter) := do
  let (ids, filters) ← match selection with
    | some selection => collectResourceIds lib selection [] []
    | none => .ok ([], [])
  if ids.isEmpty then .error (.missingFilter "resource_id") else return (ids, filters)

/-! ## Availability -/

structure AvailabilityFilters where
  resourceId : Option Ulid
  resourceIds : List Ulid
  start : Option Ms
  stop : Option Ms
  minDuration : Option Ms
  minAvailable : Option Nat
  deriving DecidableEq

def AvailabilityFilters.default : AvailabilityFilters := ⟨none, [], none, none, none, none⟩

def unsupportedAvailabilityFilter (column : Option String) (op : String) : SqlError :=
  .unsupported ("\x60" ++ column.getD "<expression>" ++ " " ++ op ++ " ...\x60 in an availability WHERE clause. " ++
    "Supported: resource_id = or IN, start >=, \"end\" <=, min_duration =, min_available =")

/-- The conjuncts of a clause, from left to right. -/
def flattenConjuncts : Expr → List Expr
  | .nested inner => flattenConjuncts inner
  | .binaryOp left .and right => flattenConjuncts left ++ flattenConjuncts right
  | leaf => [leaf]

def conjunctsOf (selection : Option Expr) : List Expr := (selection.map flattenConjuncts).getD []

def extractOneAvailabilityFilter (f : AvailabilityFilters) : Expr → Except SqlError AvailabilityFilters
  | .binaryOp left .eq right =>
      match exprColumnName lib left with
      | some "resource_id" =>
          if f.resourceId.isSome then .error (.unsupported ("resource_id given twice; an availability read addresses " ++
            "one resource, or a set via resource_id IN (...)"))
          else do
            let id ← parseUlidExpr lib right
            return { f with resourceId := some id }
      | some "min_duration" => do
          let d ← parseI64Expr lib right
          return { f with minDuration := some d }
      | some "min_available" => do
          let v ← parseI64Expr lib right
          if v < 0 then .error (.unsupported "min_available must be non-negative")
          else return { f with minAvailable := some v.toNat }
      | other => .error (unsupportedAvailabilityFilter other "=")
  | .binaryOp left op right =>
      -- Repeated bounds intersect.
      if op = .gtEq ∧ exprColumnName lib left = some "start" then do
        let v ← parseI64Expr lib right
        return { f with start := some (f.start.elim v (max · v)) }
      else if op = .ltEq ∧ exprColumnName lib left = some "end" then do
        let v ← parseI64Expr lib right
        return { f with stop := some (f.stop.elim v (min · v)) }
      else .error (unsupportedAvailabilityFilter (exprColumnName lib left) (lib.displayOperator op))
  | .inList column list negated =>
      if !negated && exprColumnName lib column = some "resource_id" then do
        let listed ← parseInList lib list
        return { f with resourceIds := f.resourceIds ++ listed }
      else .error (unsupportedClause (.inList column list negated))
  | other => .error (unsupportedClause other)
where
  unsupportedClause (other : Expr) : SqlError :=
    .unsupported ("filter in availability WHERE clause: " ++ lib.displayExpr other ++ ". Supported: resource_id = or IN, " ++
      "start >=, \"end\" <=, min_duration =, min_available =")

def extractAvailabilityFilters (expr : Expr) (f : AvailabilityFilters) : Except SqlError AvailabilityFilters :=
  (conjunctsOf (some expr)).foldlM (extractOneAvailabilityFilter lib) f

inductive AvailabilityShape where
  | single
  | perResourceMulti
  | merged
  deriving DecidableEq

def isResourceIdInList : Expr → Bool
  | .inList column _ negated => !negated && exprColumnName lib column = some "resource_id"
  | _ => false

def isMinAvailableEq : Expr → Bool
  | .binaryOp left .eq _ => exprColumnName lib left = some "min_available"
  | _ => false

def availabilityShape (selection : Option Expr) : AvailabilityShape :=
  let leaves := conjunctsOf selection
  match leaves.any (isResourceIdInList lib), leaves.any (isMinAvailableEq lib) with
  | true, true => .merged
  | true, false => .perResourceMulti
  | _, _ => .single

/-- What a number of resources to be free at once has to be. -/
def checkMinAvailable (f : AvailabilityFilters) : Except SqlError Unit :=
  match f.minAvailable with
  | none => .ok ()
  | some n =>
      if f.resourceIds.isEmpty then
        .error (.unsupported "min_available requires resource_id IN (...); it asks how many of a SET are free at once")
      else if n = 0 then
        .error (.unsupported "min_available = 0; every span trivially satisfies it, so the read has no meaning")
      else if n > f.resourceIds.length then
        .error (.unsupported ("min_available = " ++ toString n ++ " exceeds the " ++ toString f.resourceIds.length ++
          " resource(s) listed, so no span can ever satisfy it"))
      else .ok ()

def selectAvailability (selection : Option Expr) : Except SqlError Command := do
  let f ← match selection with
    | some selection => extractAvailabilityFilters lib selection .default
    | none => .ok .default
  let start ← f.start.elim (.error (.missingFilter "start")) .ok
  let stop ← f.stop.elim (.error (.missingFilter "end")) .ok
  if f.resourceId.isSome && !f.resourceIds.isEmpty then
    .error (.unsupported "both resource_id = and resource_id IN (...); use one or the other")
  else
    checkMinAvailable f
    match availabilityShape lib selection with
    | .merged => do
        let n ← f.minAvailable.elim (.error (.missingFilter "min_available")) .ok
        return .selectMultiAvailability f.resourceIds start stop n f.minDuration
    | .perResourceMulti => return .selectAvailabilityMulti f.resourceIds start stop f.minDuration
    | .single => do
        let id ← f.resourceId.elim (.error (.missingFilter "resource_id")) .ok
        return .selectAvailability id start stop f.minDuration

/-! ## The statement -/

def extractResourceFilter : Expr → Except SqlError ResourceFilter
  | .binaryOp left .eq right =>
      match exprColumnName lib left with
      | some "parent_id" => (parseUlidExpr lib right).map .childrenOf
      | some "id" => (parseUlidExpr lib right).map .id
      | _ => .error (.missingFilter "parent_id or id")
  | .isNull inner =>
      if exprColumnName lib inner = some "parent_id" then .ok .roots else .error (.missingFilter "parent_id or id")
  | _ => .error (.missingFilter "parent_id or id")

def objectNamePart : ObjectNamePart → Option String
  | .identifier value => some (lib.toLowercase value)
  | .other => none

/-- The last part of a name, which may be qualified by the public schema only. -/
def objectNameLast (name : List ObjectNamePart) : Option String := do
  let last ← objectNamePart lib (← name.getLast?)
  match name with
  | [] | [_] => some last
  | [first, _] => if objectNamePart lib first = some "public" then some last else none
  | _ => none

def tableFactorName : TableFactor → Except SqlError String
  | .table name => (objectNameLast lib name).elim (.error (.parse "empty table name")) .ok
  | .other => .error (.parse "complex table expression")

def rejectUnsupportedReadClauses (query : Query) (select : Select) : Except SqlError Unit :=
  if !select.wildcard then
    .error (.unsupported "a column list; every deltat read returns its full row, so use \x60SELECT *\x60")
  else if select.tables.length > 1 ∨ select.tables.any (·.joined) then unsupported "a JOIN or a second FROM item"
  else if query.orderBy then unsupported "ORDER BY"
  else if query.limitClause then unsupported "LIMIT or OFFSET"
  else if query.fetch then unsupported "FETCH"
  else if query.withClause then unsupported "a common table expression"
  else if query.locks then unsupported "a row lock such as FOR UPDATE"
  else if select.distinct then unsupported "DISTINCT"
  else if select.having then unsupported "HAVING"
  else if select.groupBy then unsupported "GROUP BY"
  else .ok ()
where
  unsupported (what : String) : Except SqlError Unit := .error (.unsupported (what ++ " on a deltat read"))

/-- The command for a table and its WHERE clause. -/
def selectFrom (selection : Option Expr) : String → Except SqlError Command
  | "availability" => selectAvailability lib selection
  | "resources" => do
      let filter ← match selection with
        | some selection => extractResourceFilter lib selection
        | none => .ok .all
      return .selectResources filter
  | "rules" => return .selectRules (← extractResourceIdFilter lib selection)
  | "bookings" => do
      let (ids, filters) ← extractResourceIdsFilter lib selection
      match ids with
      | [id] => return .selectBookings id filters
      | ids => return .selectBookingsMulti ids filters
  | "holds" => do
      let (ids, filters) ← extractResourceIdsFilter lib selection
      match ids with
      | [id] => return .selectHolds id filters
      | ids => return .selectHoldsMulti ids filters
  | table => .error (.unknownTable table)

def parseSelect (query : Query) : Except SqlError Command :=
  match query.body with
  | none => .error (.unsupported "non-SELECT query")
  | some select =>
      match select.tables with
      | [] => .error (.parse "SELECT without FROM")
      | first :: _ => do
          rejectUnsupportedReadClauses query select
          let table ← tableFactorName lib first.relation
          selectFrom lib select.selection table

end

end Sql

end Deltat
