import Deltat.SelectAnswers

/-! # What a statement is announced to answer

A client may ask for the columns of a statement before it binds any value. They are told from the
statement with its placeholders. Executed later with values, the statement answers rows of exactly
those columns.
-/

namespace Deltat

open Lib

/-! ## Columns -/

inductive DataType where
  | varchar
  | int8
  | bool
  deriving DecidableEq

/-- A result column. All are sent as texts. -/
structure FieldInfo where
  name : String
  datatype : DataType
  deriving DecidableEq

def availabilitySchema : List FieldInfo := [⟨"resource_id", .varchar⟩, ⟨"start", .int8⟩, ⟨"end", .int8⟩]

def multiAvailabilitySchema : List FieldInfo := [⟨"start", .int8⟩, ⟨"end", .int8⟩]

def resourcesSchema : List FieldInfo :=
  [⟨"id", .varchar⟩, ⟨"parent_id", .varchar⟩, ⟨"name", .varchar⟩, ⟨"capacity", .int8⟩, ⟨"buffer_after", .int8⟩]

def rulesSchema : List FieldInfo :=
  [⟨"id", .varchar⟩, ⟨"resource_id", .varchar⟩, ⟨"start", .int8⟩, ⟨"end", .int8⟩, ⟨"blocking", .bool⟩]

def bookingsSchema : List FieldInfo :=
  [⟨"id", .varchar⟩, ⟨"resource_id", .varchar⟩, ⟨"start", .int8⟩, ⟨"end", .int8⟩, ⟨"label", .varchar⟩]

def holdsSchema : List FieldInfo :=
  [⟨"id", .varchar⟩, ⟨"resource_id", .varchar⟩, ⟨"start", .int8⟩, ⟨"end", .int8⟩, ⟨"expires_at", .int8⟩]

/-! ## Rows -/

/-- An encoded field. -/
inductive Cell where
  | string (s : String)
  | integer (n : Int)
  | boolean (b : Bool)
  | null
  deriving DecidableEq

namespace Cell

def orNull {α : Type} (encode : α → Cell) : Option α → Cell
  | some a => encode a
  | none => null

/-- Whether a field has the type of its column. -/
def hasType : Cell → DataType → Bool
  | string _, .varchar | integer _, .int8 | boolean _, .bool | null, _ => true
  | _, _ => false

end Cell

/-- What a SELECT is answered. -/
structure QueryResponse where
  schema : List FieldInfo
  rows : List (List Cell)
  deriving DecidableEq

section

variable (displayUlid : Ulid → String)

def ResourceInfo.encode (r : ResourceInfo) : List Cell :=
  [.string (displayUlid r.id), .orNull (.string <| displayUlid ·) r.parentId, .orNull .string r.name,
    .integer r.capacity.toNat, .orNull .integer r.bufferAfter]

def RuleInfo.encode (r : RuleInfo) : List Cell :=
  [.string (displayUlid r.id), .string (displayUlid r.resourceId), .integer r.start, .integer r.stop, .boolean r.blocking]

def BookingInfo.encode (b : BookingInfo) : List Cell :=
  [.string (displayUlid b.id), .string (displayUlid b.resourceId), .integer b.start, .integer b.stop, .orNull .string b.label]

def HoldInfo.encode (h : HoldInfo) : List Cell :=
  [.string (displayUlid h.id), .string (displayUlid h.resourceId), .integer h.start, .integer h.stop, .integer h.expiresAt]

def encodeSlot (slot : Ulid × Span) : List Cell :=
  [.string (displayUlid slot.1), .integer slot.2.start, .integer slot.2.end]

def encodeSpan (span : Span) : List Cell := [.integer span.start, .integer span.end]

/-- The rows of an answer, field by field. -/
def Answer.encode : Answer → List (List Cell)
  | .resources rows => rows.map (·.encode displayUlid)
  | .rules rows => rows.map (·.encode displayUlid)
  | .bookings rows => rows.map (·.encode displayUlid)
  | .holds rows => rows.map (·.encode displayUlid)
  | .availability rows => rows.map (encodeSlot displayUlid)
  | .merged rows => rows.map encodeSpan

/-- The columns that the rows of a command are encoded for. -/
def Command.schema : Command → List FieldInfo
  | .selectResources _ => resourcesSchema
  | .selectRules _ => rulesSchema
  | .selectBookings .. | .selectBookingsMulti .. => bookingsSchema
  | .selectHolds .. | .selectHoldsMulti .. => holdsSchema
  | .selectAvailability .. | .selectAvailabilityMulti .. => availabilitySchema
  | .selectMultiAvailability .. => multiAvailabilitySchema

def Command.respond (s : InMemoryStore) (now : Ms) (command : Command) : Except EngineError QueryResponse :=
  (command.execute s now).map fun answer => ⟨command.schema, answer.encode displayUlid⟩

end

/-! ## The announcement -/

namespace Sql

section

variable (lib : Library)

/-- The columns for a table by its name. -/
def schemaFor (selection : Option Expr) : String → List FieldInfo
  | "availability" =>
      match availabilityShape lib selection with
      | .merged => multiAvailabilitySchema
      | _ => availabilitySchema
  | "resources" => resourcesSchema
  | "rules" => rulesSchema
  | "bookings" => bookingsSchema
  | "holds" => holdsSchema
  | _ => []

/-- The columns told for a text that parses as these statements, of which some are queries. -/
def schemaForSql (statements : List (Option Query)) : List FieldInfo :=
  match statements with
  | some query :: _ =>
      match query.body with
      | some select =>
          match select.tables with
          | first :: _ =>
              match first.relation with
              | .table name =>
                  match name.getLast? with
                  | some (.identifier table) => schemaFor lib select.selection (lib.toLowercase table)
                  | _ => []
              | .other => []
          | [] => []
      | none => []
  | _ => []

end

/-! ## Binding -/

/-- An expression before and after values are put in place of its placeholders. -/
inductive Binds : Expr → Expr → Prop
  | placeholder (text : String) (v : Value) : Binds (.value (.other text)) (.value v)
  | identifier (value : String) : Binds (.identifier value) (.identifier value)
  | compoundIdentifier (parts : List String) : Binds (.compoundIdentifier parts) (.compoundIdentifier parts)
  | value (v : Value) : Binds (.value v) (.value v)
  | minus {expr expr' : Expr} (inner : Binds expr expr') : Binds (.minus expr) (.minus expr')
  | binaryOp {left left' right right' : Expr} (op : BinaryOperator) (first : Binds left left') (second : Binds right right') :
      Binds (.binaryOp left op right) (.binaryOp left' op right')
  | inList {expr expr' : Expr} {list list' : List Expr} (negated : Bool) (inner : Binds expr expr')
      (length : list.length = list'.length)
      (listed : ∀ (i : Nat) e e', list[i]? = some e → list'[i]? = some e' → Binds e e') :
      Binds (.inList expr list negated) (.inList expr' list' negated)
  | isNull {expr expr' : Expr} (inner : Binds expr expr') : Binds (.isNull expr) (.isNull expr')
  | nested {expr expr' : Expr} (inner : Binds expr expr') : Binds (.nested expr) (.nested expr')
  | other (text text' : String) : Binds (.other text) (.other text')

/-- The same for a query, whose values are in its WHERE clause. -/
inductive Query.Binds (query : Query) : Query → Prop
  | bound {select : Select} {expr expr' : Expr} (body : query.body = some select) (clause : select.selection = some expr)
      (binds : Sql.Binds expr expr') :
      Binds query { query with body := some { select with selection := some expr' } }
  | unchanged : Binds query query

/-- What is read of an expression by its shape. -/
structure SameShape (lib : Library) (e e' : Expr) : Prop where
  listed : isResourceIdInList lib e' = isResourceIdInList lib e
  counted : isMinAvailableEq lib e' = isMinAvailableEq lib e

variable {lib : Library} {e e' : Expr}

theorem Binds.columnName (binds : Binds e e') : exprColumnName lib e' = exprColumnName lib e := by
  cases binds <;> rfl

theorem Binds.sameShape (binds : Binds e e') : SameShape lib e e' := by
  cases binds with
  | binaryOp op first =>
      refine ⟨rfl, ?_⟩
      cases op <;> simp only [isMinAvailableEq, first.columnName]
  | inList negated inner => exact ⟨by simp only [isResourceIdInList, inner.columnName], rfl⟩
  | _ => exact ⟨rfl, rfl⟩

/-- Binding keeps the conjuncts of a clause apart as they are. -/
theorem Binds.conjuncts (binds : Binds e e') :
    List.Forall₂ (SameShape lib) (flattenConjuncts e) (flattenConjuncts e') := by
  induction binds with
  | nested _ ih => exact ih
  | binaryOp op first second ihFirst ihSecond =>
      cases op with
      | and =>
          simp only [flattenConjuncts]
          exact List.rel_append ihFirst ihSecond
      | _ =>
          simp only [flattenConjuncts]
          exact .cons (Binds.binaryOp _ first second).sameShape .nil
  | placeholder text v => exact .cons (Binds.placeholder text v).sameShape .nil
  | identifier value => exact .cons (Binds.identifier value).sameShape .nil
  | compoundIdentifier parts => exact .cons (Binds.compoundIdentifier parts).sameShape .nil
  | value v => exact .cons (Binds.value v).sameShape .nil
  | minus inner => exact .cons (Binds.minus inner).sameShape .nil
  | inList negated inner length listed => exact .cons (Binds.inList negated inner length listed).sameShape .nil
  | isNull inner => exact .cons (Binds.isNull inner).sameShape .nil
  | other text text' => exact .cons (Binds.other text text').sameShape .nil

theorem any_sameShape {leaves leaves' : List Expr} {p : Expr → Bool}
    (same : List.Forall₂ (SameShape lib) leaves leaves') (read : ∀ e e', SameShape lib e e' → p e' = p e) :
    leaves'.any p = leaves.any p := by
  induction same with
  | nil => rfl
  | cons first _ ih => rw [List.any_cons, List.any_cons, read _ _ first, ih]

/-- Whatever is bound, the way an availability read is classified stays. -/
theorem Binds.shape (binds : Binds e e') : availabilityShape lib (some e') = availabilityShape lib (some e) := by
  have same : List.Forall₂ (SameShape lib) (conjunctsOf (some e)) (conjunctsOf (some e')) := binds.conjuncts
  simp only [availabilityShape, any_sameShape same fun _ _ same => same.listed,
    any_sameShape same fun _ _ same => same.counted]

theorem Binds.schemaFor (binds : Binds e e') (table : String) :
    schemaFor lib (some e') table = schemaFor lib (some e) table := by
  unfold Sql.schemaFor
  rw [binds.shape]

variable {query bound : Query} {command : Command} {selection : Option Expr} {table : String}

/-- What a query has to be to become a command. -/
theorem parseSelect_ok (parsed : parseSelect lib query = .ok command) : ∃ select first rest name last,
    query.body = some select ∧ select.tables = first :: rest ∧ first.relation = .table name ∧
      name.getLast? = some (.identifier last) ∧ selectFrom lib select.selection (lib.toLowercase last) = .ok command := by
  unfold parseSelect at parsed
  split at parsed
  · cases parsed
  · next select body =>
      split at parsed
      · cases parsed
      · next first rest tables =>
          obtain ⟨_, _, parsed⟩ := Outcome.bind_ok.mp parsed
          obtain ⟨table, named, parsed⟩ := Outcome.bind_ok.mp parsed
          unfold tableFactorName at named
          split at named
          · next name relation =>
              cases last : objectNameLast lib name with
              | none =>
                  rw [last] at named
                  cases named
              | some found =>
                  rw [last] at named
                  cases named
                  unfold objectNameLast at last
                  obtain ⟨part, isLast, last⟩ := Option.bind_eq_some_iff.mp last
                  obtain ⟨lowered, ident, last⟩ := Option.bind_eq_some_iff.mp last
                  have same : lowered = table := by
                    split at last
                    · exact Option.some.inj last
                    · exact Option.some.inj last
                    · split at last
                      · exact Option.some.inj last
                      · cases last
                    · cases last
                  subst same
                  cases part with
                  | identifier value =>
                      cases ident
                      exact ⟨select, first, rest, name, value, body, tables, relation, isLast, parsed⟩
                  | other => cases ident
          · cases named

theorem availability_schema (chosen : selectAvailability lib selection = .ok command) :
    command.schema = schemaFor lib selection "availability" := by
  unfold selectAvailability at chosen
  cases selection with
  | none | some =>
      obtain ⟨f, _, chosen⟩ := Outcome.bind_ok.mp chosen
      obtain ⟨start, _, chosen⟩ := Outcome.bind_ok.mp chosen
      obtain ⟨stop, _, chosen⟩ := Outcome.bind_ok.mp chosen
      split at chosen
      · cases chosen
      · obtain ⟨_, _, chosen⟩ := Outcome.bind_ok.mp chosen
        unfold schemaFor
        split at chosen
        · next shape =>
            obtain ⟨_, _, chosen⟩ := Outcome.bind_ok.mp chosen
            cases chosen
            rw [shape]
            rfl
        · next shape =>
            cases chosen
            rw [shape]
            rfl
        · next shape =>
            obtain ⟨_, _, chosen⟩ := Outcome.bind_ok.mp chosen
            cases chosen
            rw [shape]
            rfl

/-- A command's columns are told by its table, and for availability by the shape of its clause. -/
theorem selectFrom_schema (chosen : selectFrom lib selection table = .ok command) :
    command.schema = schemaFor lib selection table := by
  unfold selectFrom at chosen
  split at chosen
  · exact availability_schema chosen
  · cases selection with
    | none | some =>
        obtain ⟨filter, _, chosen⟩ := Outcome.bind_ok.mp chosen
        cases chosen
        rfl
  · obtain ⟨id, _, chosen⟩ := Outcome.bind_ok.mp chosen
    cases chosen
    rfl
  · obtain ⟨⟨ids, filters⟩, _, chosen⟩ := Outcome.bind_ok.mp chosen
    simp only at chosen
    split at chosen <;> cases chosen <;> rfl
  · obtain ⟨⟨ids, filters⟩, _, chosen⟩ := Outcome.bind_ok.mp chosen
    simp only at chosen
    split at chosen <;> cases chosen <;> rfl
  · cases chosen

/-- Every field of an answer has the type of its column. -/
theorem execute_typed {displayUlid : Ulid → String} {s : InMemoryStore} {now : Ms} {answer : Answer}
    (answered : command.execute s now = .ok answer) : ∀ row ∈ answer.encode displayUlid,
      List.Forall₂ (fun cell column => cell.hasType column.datatype = true) row command.schema := by
  have nullable : ∀ {α : Type} {encode : α → Cell} {type : DataType} (value : Option α),
      (∀ a, (encode a).hasType type = true) → (Cell.orNull encode value).hasType type = true := by
    intro α encode type value typed
    cases value with
    | none => cases type <;> rfl
    | some a => exact typed a
  have texts : ∀ {α : Type} {text : α → String} (value : Option α),
      (Cell.orNull (fun a => .string (text a)) value).hasType .varchar = true := fun value => nullable value fun _ => rfl
  have numbers : ∀ value : Option Ms, (Cell.orNull .integer value).hasType .int8 = true := fun value => nullable value fun _ => rfl
  intro row inside
  cases command with
  | selectResources filter =>
      have rows : ∃ rows, answer = .resources rows := by
        cases filter <;> cases answered <;> exact ⟨_, rfl⟩
      obtain ⟨rows, rfl⟩ := rows
      obtain ⟨r, _, rfl⟩ := List.mem_map.mp inside
      exact .cons rfl (.cons (texts r.parentId) (.cons (texts r.name) (.cons rfl (.cons (numbers r.bufferAfter) .nil))))
  | selectRules =>
      obtain ⟨rows, _, rfl⟩ := Outcome.map_ok.mp answered
      obtain ⟨r, _, rfl⟩ := List.mem_map.mp inside
      exact .cons rfl (.cons rfl (.cons rfl (.cons rfl (.cons rfl .nil))))
  | selectBookings | selectBookingsMulti =>
      obtain ⟨rows, _, rfl⟩ := Outcome.map_ok.mp answered
      obtain ⟨b, _, rfl⟩ := List.mem_map.mp inside
      exact .cons rfl (.cons rfl (.cons rfl (.cons rfl (.cons (texts b.label) .nil))))
  | selectHolds | selectHoldsMulti =>
      obtain ⟨rows, _, rfl⟩ := Outcome.map_ok.mp answered
      obtain ⟨h, _, rfl⟩ := List.mem_map.mp inside
      exact .cons rfl (.cons rfl (.cons rfl (.cons rfl (.cons rfl .nil))))
  | selectAvailability | selectAvailabilityMulti =>
      obtain ⟨rows, _, rfl⟩ := Outcome.map_ok.mp answered
      obtain ⟨slot, _, rfl⟩ := List.mem_map.mp inside
      exact .cons rfl (.cons rfl (.cons rfl .nil))
  | selectMultiAvailability =>
      obtain ⟨rows, _, rfl⟩ := Outcome.map_ok.mp answered
      obtain ⟨span, _, rfl⟩ := List.mem_map.mp inside
      exact .cons rfl (.cons rfl .nil)

/-- Binding changes nothing of what is announced. -/
theorem Query.Binds.announced (binds : query.Binds bound) (others : List (Option Query)) :
    schemaForSql lib (some bound :: others) = schemaForSql lib (some query :: others) := by
  cases binds with
  | unchanged => rfl
  | @bound select expr expr' body clause binds =>
      simp only [schemaForSql, body, clause, binds.schemaFor]

/-- A client that is told the columns of a statement before it binds values gets rows of exactly
    these columns, of their types and in their order, whatever it binds and whatever is stored. -/
theorem described_as_executed (binds : query.Binds bound) (parsed : parseSelect lib bound = .ok command)
    (others : List (Option Query)) (displayUlid : Ulid → String) (s : InMemoryStore) (now : Ms) {response : QueryResponse}
    (answered : command.respond displayUlid s now = .ok response) :
    response.schema = schemaForSql lib (some query :: others) ∧ response.schema ≠ [] ∧ ∀ row ∈ response.rows,
      List.Forall₂ (fun cell column => cell.hasType column.datatype = true) row (schemaForSql lib (some query :: others)) := by
  obtain ⟨select, first, rest, name, last, body, tables, relation, isLast, chosen⟩ := parseSelect_ok parsed
  have announced : command.schema = schemaForSql lib (some query :: others) := by
    rw [← binds.announced, selectFrom_schema chosen]
    simp only [schemaForSql, body, tables, relation, isLast]
  obtain ⟨answer, executed, rfl⟩ := Outcome.map_ok.mp answered
  refine ⟨announced, ?_, announced ▸ execute_typed executed⟩
  cases command <;> exact List.cons_ne_nil _ _

/-- How many of two resources are free at once, in a window, with these values. -/
def freeAtOnce (first second number start stop : Value) : Expr :=
  .binaryOp (.binaryOp (.binaryOp (.inList (.identifier "resource_id") [.value first, .value second] false) .and
    (.binaryOp (.identifier "min_available") .eq (.value number))) .and
    (.binaryOp (.identifier "start") .gtEq (.value start))) .and
    (.binaryOp (.identifier "end") .ltEq (.value stop))

def readsAvailability (clause : Expr) : Query :=
  ⟨some ⟨true, [⟨.table [.identifier "availability"], false⟩], some clause, false, false, false⟩,
    false, false, false, false, false⟩

def unboundRead : Query := readsAvailability (freeAtOnce (.other "$1") (.other "$2") (.other "$3") (.other "$4") (.other "$5"))

def boundRead : Query :=
  readsAvailability (freeAtOnce (.singleQuotedString "00000000000000000000000001")
    (.singleQuotedString "00000000000000000000000002") (.singleQuotedString "1") (.singleQuotedString "0")
    (.singleQuotedString "100"))

theorem boundRead_binds : unboundRead.Binds boundRead := by
  have listed : Binds (.inList (.identifier "resource_id") [.value (.other "$1"), .value (.other "$2")] false)
      (.inList (.identifier "resource_id") [.value (.singleQuotedString "00000000000000000000000001"),
        .value (.singleQuotedString "00000000000000000000000002")] false) := by
    refine .inList _ (.identifier _) rfl fun i e e' here there => ?_
    match i with
    | 0 | 1 =>
        cases here
        cases there
        exact .placeholder _ _
    | i + 2 => cases here
  have clause := listed.binaryOp .and (.binaryOp .eq (.identifier "min_available") (.placeholder "$3" (.singleQuotedString "1")))
  have later := clause.binaryOp .and (.binaryOp .gtEq (.identifier "start") (.placeholder "$4" (.singleQuotedString "0")))
  have whole := later.binaryOp .and (.binaryOp .ltEq (.identifier "end") (.placeholder "$5" (.singleQuotedString "100")))
  exact @Query.Binds.bound unboundRead _ _ _ rfl rfl whole

/-- One of the two resources is open for a while. -/
def openRoom : InMemoryStore := .filled ⟨0, ⟨0, 10⟩, .nonBlocking⟩ [1]

theorem merged_described_as_executed :
    (Command.selectMultiAvailability [1, 2] 0 100 1 none).respond toString openRoom 0 =
      .ok ⟨multiAvailabilitySchema, [[.integer 0, .integer 10]]⟩ ∧
    multiAvailabilitySchema = schemaForSql plainLibrary [some unboundRead] ∧ multiAvailabilitySchema ≠ [] ∧
    ∀ row ∈ [[Cell.integer 0, Cell.integer 10]], List.Forall₂ (fun cell column => cell.hasType column.datatype = true) row
      (schemaForSql plainLibrary [some unboundRead]) := by
  have answered : (Command.selectMultiAvailability [1, 2] 0 100 1 none).respond toString openRoom 0 =
      .ok ⟨multiAvailabilitySchema, [[.integer 0, .integer 10]]⟩ := by decide +kernel
  have parsed : parseSelect plainLibrary boundRead = .ok (.selectMultiAvailability [1, 2] 0 100 1 none) := by decide +kernel
  exact ⟨answered, described_as_executed boundRead_binds parsed [] toString openRoom 0 answered⟩

end Sql

end Deltat
