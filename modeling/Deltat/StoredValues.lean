import Deltat.Lib.Outcome
import Deltat.WriteStatements

/-! # Where the values of a write end up

What a write means, by the columns of its table: every supplied value is stored in the field that
its name names, and a field that nobody names has its default.
-/

namespace Deltat

open Lib

namespace Sql

/-! ## What a write says -/

/-- What a field of a command has. `unchanged` stands in an UPDATE that does not mention the field. -/
inductive Content where
  | null
  | unchanged
  | ulid (id : Ulid)
  | ms (t : Ms)
  | text (s : String)
  | bool (b : Bool)
  | count (n : Nat)
  deriving DecidableEq

def Content.nullable {α : Type} (content : α → Content) (value : Option α) : Content := value.elim .null content

/-- What can be written in a column. -/
inductive Kind where
  | ulid
  | ulidOrNull
  | ms
  | msOrNull
  | textOrNull
  | bool
  | u32
  deriving DecidableEq

/-- The content that a literal spells. -/
def Kind.read (lib : WriteLibrary) : Kind → Expr → Except SqlError Content
  | .ulid, e => .ulid <$> parseUlid lib e
  | .ulidOrNull, e => .nullable .ulid <$> parseUlidOrNull lib e
  | .ms, e => .ms <$> parseMs lib e
  | .msOrNull, e => .nullable .ms <$> parseI64OrNull lib e
  | .textOrNull, e => .nullable .text <$> parseStringOrNull lib e
  | .bool, e => .bool <$> parseBool lib e
  | .u32, e => .count <$> parseU32 lib e

/-- A column, and what it has when nobody names it. -/
structure Field where
  column : String
  kind : Kind
  default : Option Content
  deriving DecidableEq

/-- The columns of a write, and those that its values belong to when there is no column list. -/
structure Schema where
  fields : List Field
  order : List String
  deriving DecidableEq

abbrev Row := List (String × Content)

namespace Schema

def resources : Schema where
  fields := [⟨"id", .ulid, none⟩, ⟨"parent_id", .ulidOrNull, some .null⟩, ⟨"name", .textOrNull, some .null⟩,
    ⟨"capacity", .u32, some (.count 1)⟩, ⟨"buffer_after", .msOrNull, some .null⟩]
  order := ["id", "parent_id", "capacity", "buffer_after"]

/-- A span on a resource, and one more column. -/
def spanned (last : Field) : Schema where
  fields := [⟨"id", .ulid, none⟩, ⟨"resource_id", .ulid, none⟩, ⟨"start", .ms, none⟩, ⟨"end", .ms, none⟩, last]
  order := ["id", "resource_id", "start", "end", last.column]

def rules : Schema := spanned ⟨"blocking", .bool, none⟩
def holds : Schema := spanned ⟨"expires_at", .ms, none⟩
def bookings : Schema := spanned ⟨"label", .textOrNull, some .null⟩

def heldBookings : Schema where
  fields := [⟨"id", .ulid, none⟩, ⟨"hold_id", .ulid, none⟩, ⟨"label", .textOrNull, some .null⟩]
  order := []

/-- An UPDATE names its row by the id in its WHERE clause. -/
def resourceChanges : Schema where
  fields := [⟨"id", .ulid, none⟩, ⟨"name", .textOrNull, some .unchanged⟩, ⟨"capacity", .u32, some .unchanged⟩,
    ⟨"buffer_after", .msOrNull, some .unchanged⟩]
  order := []

def ruleChanges : Schema where
  fields := [⟨"id", .ulid, none⟩, ⟨"start", .ms, none⟩, ⟨"end", .ms, none⟩, ⟨"blocking", .bool, none⟩]
  order := []

def commits : Schema where
  fields := [⟨"id", .ulid, none⟩, ⟨"booking_id", .ulid, none⟩, ⟨"label", .textOrNull, some .null⟩]
  order := []

end Schema

/-- The names of a row's values. -/
def namesOf (order columns : List String) : List String := if columns.isEmpty then order else columns

/-- Every value is stored where it is named, no two are named alike, and the rest has its defaults. -/
structure Faithful (lib : WriteLibrary) (schema : Schema) (names : List String) (values : List Expr) (row : Row) : Prop where
  placed : ∀ (i : Nat) (value : Expr), values[i]? = some value → ∃ field ∈ schema.fields, ∃ content,
    names[i]? = some field.column ∧ field.kind.read lib value = .ok content ∧ row.lookup field.column = some content
  once : ∀ (i j : Nat) (column : String), i < values.length → j < values.length →
    names[i]? = some column → names[j]? = some column → i = j
  rest : ∀ field ∈ schema.fields, field.column ∉ names.take values.length →
    ∃ content, field.default = some content ∧ row.lookup field.column = some content

end Sql

/-! ## The fields of a command -/

section

open Sql

def ResourceRow.row (r : ResourceRow) : Row :=
  [("id", .ulid r.id), ("parent_id", .nullable .ulid r.parentId), ("name", .nullable .text r.name),
    ("capacity", .count r.capacity), ("buffer_after", .nullable .ms r.bufferAfter)]

def spannedRow (id resourceId : Ulid) (start stop : Ms) (last : String) (own : Content) : Row :=
  [("id", .ulid id), ("resource_id", .ulid resourceId), ("start", .ms start), ("end", .ms stop), (last, own)]

def RuleRow.row (r : RuleRow) : Row := spannedRow r.id r.resourceId r.start r.stop "blocking" (.bool r.blocking)

def HoldRow.row (r : HoldRow) : Row := spannedRow r.id r.resourceId r.start r.stop "expires_at" (.ms r.expiresAt)

def BookingRow.row (r : BookingRow) : Row := spannedRow r.id r.resourceId r.start r.stop "label" (.nullable .text r.label)

/-- An INSERT gives the booking's id, an UPDATE the hold's. -/
def CommitRow.row (r : CommitRow) : Row :=
  [("id", .ulid r.bookingId), ("hold_id", .ulid r.holdId), ("label", .nullable .text r.label)]

def CommitRow.updateRow (r : CommitRow) : Row :=
  [("id", .ulid r.holdId), ("booking_id", .ulid r.bookingId), ("label", .nullable .text r.label)]

/-- The content that an UPDATE gives a field, if it mentions it. -/
def changed {α : Type} (content : α → Content) (value : Option α) : Content := value.elim .unchanged content

def ResourceChanges.row (id : Ulid) (c : ResourceChanges) : Row :=
  [("id", .ulid id), ("name", changed (.nullable .text) c.name), ("capacity", changed .count c.capacity),
    ("buffer_after", changed (.nullable .ms) c.bufferAfter)]

namespace WriteCommand

def schema : WriteCommand → Schema
  | insertResource _ | batchInsertResources _ => .resources
  | updateResource _ _ => .resourceChanges
  | insertRule _ | batchInsertRules _ => .rules
  | updateRule _ _ _ _ => .ruleChanges
  | insertHold _ | batchInsertHolds _ => .holds
  | insertBooking _ | batchInsertBookings _ => .bookings
  | commitHold _ => .commits
  | commitHolds _ => .heldBookings

def rows : WriteCommand → List Row
  | insertResource row => [row.row]
  | batchInsertResources resources => resources.map (·.row)
  | updateResource id changes => [changes.row id]
  | insertRule row => [row.row]
  | batchInsertRules rules => rules.map (·.row)
  | updateRule id start stop blocking => [[("id", .ulid id), ("start", .ms start), ("end", .ms stop), ("blocking", .bool blocking)]]
  | insertHold row => [row.row]
  | batchInsertHolds holds => holds.map (·.row)
  | insertBooking row => [row.row]
  | batchInsertBookings bookings => bookings.map (·.row)
  | commitHold row => [row.updateRow]
  | commitHolds commits => commits.map (·.row)

end WriteCommand

end

namespace Sql

/-! ## The statement's side -/

section

variable (lib : WriteLibrary)

def InsertBody.rows : InsertBody → List (List Expr)
  | values rows => rows
  | other => []

/-- The rows that an INSERT supplies. -/
def Insert.rows (insert : Insert) : List (List Expr) := (insert.source.map InsertBody.rows).getD []

/-- A booking with a hold among its columns commits that hold. -/
def insertSchema (table : String) (columns : List String) : Option Schema :=
  match table with
  | "resources" => some .resources
  | "rules" => some .rules
  | "holds" => some .holds
  | "bookings" => some (if columns.any (· == "hold_id") then .heldBookings else .bookings)
  | _ => none

def updateSchema : String → Option Schema
  | "resources" => some .resourceChanges
  | "rules" => some .ruleChanges
  | "holds" => some .commits
  | _ => none

/-- The columns that an UPDATE assigns. -/
def assignedColumns (assignments : List Assignment) : List String :=
  assignments.filterMap fun a => (assignmentColumnName lib a).toOption

/-- The right side of the WHERE clause. -/
def whereValue : Option Expr → List Expr
  | some (.binaryOp _ _ right) => [right]
  | _ => []

namespace WriteStatement

def schema : WriteStatement → Option Schema
  | .insert written => (insertTableName lib written).toOption.bind (insertSchema · (extractColumnNames lib written))
  | .update changed => (tableFactorName lib.toLibrary changed.table).toOption.bind updateSchema

/-- The values that a statement supplies, under their names, row by row. -/
def supplied (schema : Schema) : WriteStatement → List (List String × List Expr)
  | .insert written => written.rows.map (namesOf schema.order (extractColumnNames lib written), ·)
  | .update changed => [("id" :: assignedColumns lib changed.assignments,
      whereValue changed.selection ++ changed.assignments.map (·.value))]

end WriteStatement

/-- The command is one for the statement's table, and stores each of its rows. -/
def Stores (statement : WriteStatement) (command : WriteCommand) : Prop :=
  statement.schema lib = some command.schema ∧
    List.Forall₂ (fun supplied row => Faithful lib command.schema supplied.1 supplied.2 row)
      (statement.supplied lib command.schema) command.rows

/-- No name is given twice, a row without a column list is no longer than the table's order, and a
    column list has the id. -/
def RowClear (schema : Schema) (columns : List String) (values : List Expr) : Prop :=
  columns.Nodup ∧ (columns = [] → values.length ≤ schema.order.length) ∧ (columns ≠ [] → "id" ∈ columns)

def Clear : WriteStatement → Prop
  | .insert written => ∀ schema, (WriteStatement.insert written).schema lib = some schema →
      ∀ values ∈ written.rows, RowClear schema (extractColumnNames lib written) values
  | .update changed => (assignedColumns lib changed.assignments).Nodup

/-! ## A row by its columns -/

section

variable {lib} {schema : Schema} {names columns : List String} {values : List Expr} {row : Row} {field : Field}

/-- The value at the first place of a column. -/
def firstValue (names : List String) (values : List Expr) (column : String) : Option Expr := cell values (position names column)

/-- A field has what the first value under its name spells, or its default. -/
structure Got (lib : WriteLibrary) (names : List String) (values : List Expr) (row : Row) (field : Field) : Prop where
  given : ∀ value, firstValue names values field.column = some value →
    ∃ content, field.kind.read lib value = .ok content ∧ row.lookup field.column = some content
  absent : firstValue names values field.column = none →
    ∃ content, field.default = some content ∧ row.lookup field.column = some content

theorem position_of_nodup {column : String} {i : Nat} (nodup : names.Nodup) (at_ : names[i]? = some column) :
    position names column = some i := by
  unfold position
  rw [List.findIdx?_eq_some_iff_getElem]
  obtain ⟨inRange, there⟩ := List.getElem?_eq_some_iff.mp at_
  refine ⟨inRange, by simp [there], fun j before => ?_⟩
  have different : names[j] ≠ column := by
    intro same
    have := (List.Nodup.getElem_inj_iff nodup).mp (same.trans there.symm)
    omega
  simpa using different

/-- A row whose names are all known and different is stored field by field. -/
theorem faithful_of_got (nodup : names.Nodup) (fits : values.length ≤ names.length)
    (known : ∀ column ∈ names, ∃ field ∈ schema.fields, field.column = column)
    (got : ∀ field ∈ schema.fields, Got lib names values row field) : Faithful lib schema names values row where
  placed := by
    intro i value at_
    have inRange := (List.getElem?_eq_some_iff.mp at_).1
    have within : i < names.length := by omega
    have named : names[i]? = some names[i] := List.getElem?_eq_getElem within
    obtain ⟨field, inside, same⟩ := known _ (List.getElem_mem within)
    rw [← same] at named
    have first : firstValue names values field.column = some value := by
      rw [firstValue, position_of_nodup nodup named]
      exact at_
    obtain ⟨content, read, stored⟩ := (got field inside).given value first
    exact ⟨field, inside, content, named, read, stored⟩
  once := by
    intro i j column _ _ first second
    have same := position_of_nodup nodup first
    rw [position_of_nodup nodup second] at same
    exact (Option.some.inj same).symm
  rest := by
    intro field inside unnamed
    apply (got field inside).absent
    cases at_ : position names field.column with
    | none => simp [firstValue, at_, cell]
    | some i =>
        have there : names[i]? = some field.column := by
          unfold position at at_
          obtain ⟨inRange, same, _⟩ := List.findIdx?_eq_some_iff_getElem.mp at_
          rw [List.getElem?_eq_getElem inRange]
          simpa using same
        have beyond : values.length ≤ i := by
          by_contra within
          apply unnamed
          exact List.mem_of_getElem? (by rw [List.getElem?_take_of_lt (by omega), there] : (names.take values.length)[i]? = _)
        rw [firstValue, at_]
        exact List.getElem?_eq_none beyond

theorem Faithful.fits (faithful : Faithful lib schema names values row) : values.length ≤ names.length := by
  by_contra longer
  obtain ⟨value, there⟩ : ∃ value, values[names.length]? = some value :=
    ⟨_, List.getElem?_eq_getElem (by omega : names.length < values.length)⟩
  obtain ⟨field, _, content, named, _⟩ := faithful.placed _ value there
  rw [List.getElem?_eq_none (le_refl _)] at named
  cases named

theorem Faithful.nodup (faithful : Faithful lib schema names values row) (covers : names.length ≤ values.length) : names.Nodup := by
  rw [List.nodup_iff_getElem?_ne_getElem?]
  intro i j before inRange same
  have within : i < names.length := by omega
  have first : names[i]? = some names[i] := List.getElem?_eq_getElem within
  have equal := faithful.once i j _ (by omega) (by omega) first (same ▸ first)
  omega

/-- A field without a default is named. -/
theorem Faithful.named (faithful : Faithful lib schema names values row) (inside : field ∈ schema.fields)
    (required : field.default = none) : field.column ∈ names := by
  by_contra unnamed
  obtain ⟨content, default, _⟩ := faithful.rest field inside fun taken => unnamed (List.mem_of_mem_take taken)
  rw [required] at default
  cases default

/-- What an accepted row of an INSERT says about its schema. -/
structure Parsed (lib : WriteLibrary) (schema : Schema) (columns : List String) (values : List Expr) (row : Row) : Prop where
  arity : columns ≠ [] → values.length = columns.length
  known : ∀ column ∈ columns, ∃ field ∈ schema.fields, field.column = column
  got : (columns ≠ [] → "id" ∈ columns) → ∀ field ∈ schema.fields, Got lib (namesOf schema.order columns) values row field

/-- A table's order is an order of its columns, and its rows need an id. -/
structure Schema.Ordered (schema : Schema) : Prop where
  nodup : schema.order.Nodup
  known : ∀ column ∈ schema.order, ∃ field ∈ schema.fields, field.column = column
  id : ⟨"id", .ulid, none⟩ ∈ schema.fields

theorem Parsed.faithful_iff (ordered : schema.Ordered) (parsed : Parsed lib schema columns values row) :
    Faithful lib schema (namesOf schema.order columns) values row ↔ RowClear schema columns values := by
  constructor
  · intro faithful
    by_cases bare : columns = []
    · subst bare
      exact ⟨List.nodup_nil, fun _ => faithful.fits, fun columns => absurd rfl columns⟩
    · have names : namesOf schema.order columns = columns := if_neg (by simpa using bare)
      rw [names] at faithful
      exact ⟨faithful.nodup (parsed.arity bare).ge, fun empty => absurd empty bare, fun _ => faithful.named ordered.id rfl⟩
  · intro ⟨nodup, short, listed⟩
    by_cases bare : columns = []
    · have names : namesOf schema.order columns = schema.order := if_pos (by simpa using bare)
      have got := parsed.got listed
      rw [names] at got ⊢
      exact faithful_of_got ordered.nodup (short bare) ordered.known got
    · have names : namesOf schema.order columns = columns := if_neg (by simpa using bare)
      have got := parsed.got listed
      rw [names] at got ⊢
      exact faithful_of_got nodup (parsed.arity bare).le parsed.known got

/-! ## The row parsers -/

theorem required_ok {error : SqlError} {value : Option Expr} {e : Expr} (ok : required error value = .ok e) : value = some e := by
  cases value with
  | none => cases ok
  | some e' =>
      cases ok
      rfl

/-- A value that a row must have, and what it spells. -/
theorem required_parse {α : Type} {error : SqlError} {value : Option Expr} {parse : Expr → Except SqlError α} {a : α}
    (ok : (required error value >>= parse) = .ok a) : ∃ e, value = some e ∧ parse e = .ok a := by
  obtain ⟨e, found, parsed⟩ := Outcome.bind_ok.mp ok
  exact ⟨e, required_ok found, parsed⟩

/-- A field whose value was found and read. -/
theorem Got.of_value {value : Expr} {content : Content} (found : firstValue names values field.column = some value)
    (read : field.kind.read lib value = .ok content) (stored : row.lookup field.column = some content) :
    Got lib names values row field where
  given := by
    intro other same
    rw [found] at same
    cases same
    exact ⟨content, read, stored⟩
  absent := by
    intro missing
    rw [found] at missing
    cases missing

/-- A field that may be missing: what it has is its value's reading, or the default. -/
theorem Got.of_optional {α : Type} (content : α → Content) {parse : Expr → Except SqlError α} {a b : α}
    (ok : (firstValue names values field.column).elim (.ok b) parse = .ok a)
    (reads : ∀ e, field.kind.read lib e = content <$> parse e) (default : field.default = some (content b))
    (stored : row.lookup field.column = some (content a)) : Got lib names values row field where
  given := by
    intro value found
    rw [found] at ok
    exact ⟨content a, by rw [reads]; exact Outcome.map_ok.mpr ⟨a, ok, rfl⟩, stored⟩
  absent := by
    intro missing
    rw [missing] at ok
    cases ok
    exact ⟨content a, default, stored⟩

theorem checkColumnArity_ok {table : String} {u : Unit} (ok : checkColumnArity values columns table = .ok u)
    (listing : columns ≠ []) : values.length = columns.length := by
  unfold checkColumnArity at ok
  split at ok
  · cases ok
  · next passed => simpa [listing] using passed

theorem rejectUnknownInsertColumns_ok {table : String} {known : List String} {u : Unit}
    (ok : rejectUnknownInsertColumns columns table known = .ok u) : ∀ column ∈ columns, column ∈ known := by
  unfold rejectUnknownInsertColumns at ok
  split at ok
  · cases ok
  · next passed =>
      intro column inside
      have := List.find?_eq_none.mp passed column inside
      simpa using this

theorem colValue_eq (order : List String) {column : String} {n : Nat} (at_ : position order column = some n) :
    colValue values columns column n = firstValue (namesOf order columns) values column := by
  unfold colValue namesOf firstValue
  by_cases bare : columns = []
  · simp [bare, at_]
  · have listing : ¬ columns.isEmpty = true := by simpa using bare
    rw [if_neg listing, if_neg listing]

theorem columns_known {fields : List Field} {known : List String} (same : fields.map (·.column) = known)
    (accepted : ∀ column ∈ columns, column ∈ known) : ∀ column ∈ columns, ∃ field ∈ fields, field.column = column := by
  intro column inside
  have := accepted column inside
  rw [← same] at this
  exact List.mem_map.mp this

/-- An optional value is its own column's, or stands at the column's place in the order. -/
theorem optional_eq (order : List String) {column : String} {n : Nat} (at_ : position order column = some n) :
    (cell values (colIdx columns column)).or (positionalValue values columns n) =
      firstValue (namesOf order columns) values column := by
  unfold colIdx positionalValue namesOf firstValue
  by_cases bare : columns = []
  · by_cases within : n < values.length
    · simp [bare, cell, at_, within]
    · simp [bare, cell, at_, within]
  · have listing : columns.isEmpty = false := by simpa using bare
    simp [listing]

theorem resource_parsed {r : ResourceRow} (ok : parseResourceRow lib values columns = .ok r) :
    Parsed lib .resources columns values r.row := by
  unfold parseResourceRow at ok
  split at ok
  · cases ok
  obtain ⟨_, arity, ok⟩ := Outcome.bind_ok.mp ok
  obtain ⟨_, known, ok⟩ := Outcome.bind_ok.mp ok
  obtain ⟨first, found, ok⟩ := Outcome.bind_ok.mp ok
  obtain ⟨id, readId, ok⟩ := Outcome.bind_ok.mp ok
  obtain ⟨parentId, readParent, ok⟩ := Outcome.bind_ok.mp ok
  obtain ⟨name, readName, ok⟩ := Outcome.bind_ok.mp ok
  obtain ⟨capacity, readCapacity, ok⟩ := Outcome.bind_ok.mp ok
  obtain ⟨bufferAfter, readBuffer, ok⟩ := Outcome.bind_ok.mp ok
  cases ok
  refine ⟨checkColumnArity_ok arity, columns_known rfl (rejectUnknownInsertColumns_ok known), fun listed => ?_⟩
  have idAt : cell values ((colIdx columns "id").or (some 0)) =
      firstValue (namesOf Schema.resources.order columns) values "id" := by
    have at_ : position Schema.resources.order "id" = some 0 := rfl
    unfold colIdx namesOf firstValue
    by_cases bare : columns = []
    · simp [bare, at_]
    · have listing : columns.isEmpty = false := by simpa using bare
      have declared : (position columns "id").isSome = true := by
        simpa [position, List.findIdx?_isSome] using listed bare
      obtain ⟨i, at_⟩ := Option.isSome_iff_exists.mp declared
      simp [listing, at_]
  have parentAt : cell values ((colIdx columns "parent_id").or (if columns.isEmpty && 2 ≤ values.length then some 1 else none)) =
      firstValue (namesOf Schema.resources.order columns) values "parent_id" := by
    have at_ : position Schema.resources.order "parent_id" = some 1 := rfl
    unfold colIdx namesOf firstValue
    by_cases bare : columns = []
    · by_cases within : 2 ≤ values.length
      · simp [bare, at_, within]
      · have short : values[1]? = none := List.getElem?_eq_none (by omega)
        simp [bare, at_, within, cell, short]
    · have listing : columns.isEmpty = false := by simpa using bare
      simp [listing]
  have nameAt : cell values (colIdx columns "name") = firstValue (namesOf Schema.resources.order columns) values "name" := by
    have at_ : position Schema.resources.order "name" = none := rfl
    unfold colIdx namesOf firstValue
    by_cases bare : columns = []
    · simp [bare, at_]
    · have listing : columns.isEmpty = false := by simpa using bare
      simp [listing]
  rw [idAt] at found
  rw [parentAt] at readParent
  rw [nameAt] at readName
  rw [optional_eq Schema.resources.order rfl] at readCapacity readBuffer
  intro field inside
  simp only [Schema.resources, List.mem_cons, List.not_mem_nil, or_false] at inside
  rcases inside with rfl | rfl | rfl | rfl | rfl
  · exact .of_value (required_ok found) (Outcome.map_ok.mpr ⟨id, readId, rfl⟩) rfl
  · exact .of_optional (.nullable .ulid) readParent (fun _ => rfl) rfl rfl
  · exact .of_optional (.nullable .text) readName (fun _ => rfl) rfl rfl
  · exact .of_optional .count readCapacity (fun _ => rfl) rfl rfl
  · exact .of_optional (.nullable .ms) readBuffer (fun _ => rfl) rfl rfl

/-- Rules and holds. -/
theorem span_parsed {α β : Type} {table last : String} {parseLast : Expr → Except SqlError α}
    {make : Ulid → Ulid → Ms → Ms → α → β} {b : β} {kind : Kind} {content : α → Content} (row : β → Row)
    (place : position ["id", "resource_id", "start", "end", last] last = some 4)
    (reads : ∀ e, kind.read lib e = content <$> parseLast e)
    (shown : ∀ id resourceId start stop own, row (make id resourceId start stop own) =
      spannedRow id resourceId start stop last (content own))
    (found : ∀ id resourceId start stop own, (spannedRow id resourceId start stop last own).lookup last = some own)
    (ok : parseSpanRow lib values columns table last parseLast make = .ok b) :
    Parsed lib (.spanned ⟨last, kind, none⟩) columns values (row b) := by
  unfold parseSpanRow at ok
  obtain ⟨_, arity, ok⟩ := Outcome.bind_ok.mp ok
  obtain ⟨_, known, ok⟩ := Outcome.bind_ok.mp ok
  obtain ⟨id, readId, ok⟩ := Outcome.bind_ok.mp ok
  obtain ⟨resourceId, readResource, ok⟩ := Outcome.bind_ok.mp ok
  obtain ⟨start, readStart, ok⟩ := Outcome.bind_ok.mp ok
  obtain ⟨stop, readEnd, ok⟩ := Outcome.bind_ok.mp ok
  obtain ⟨own, readOwn, ok⟩ := Outcome.bind_ok.mp ok
  cases ok
  refine ⟨checkColumnArity_ok arity, columns_known rfl (rejectUnknownInsertColumns_ok known), fun _ => ?_⟩
  obtain ⟨idValue, idAt, readId⟩ := required_parse readId
  obtain ⟨resourceValue, resourceAt, readResource⟩ := required_parse readResource
  obtain ⟨startValue, startAt, readStart⟩ := required_parse readStart
  obtain ⟨endValue, endAt, readEnd⟩ := required_parse readEnd
  obtain ⟨ownValue, ownAt, readOwn⟩ := required_parse readOwn
  rw [colValue_eq ["id", "resource_id", "start", "end", last] rfl] at idAt resourceAt startAt endAt
  rw [colValue_eq _ place] at ownAt
  intro field inside
  simp only [Schema.spanned, List.mem_cons, List.not_mem_nil, or_false] at inside
  rw [shown]
  rcases inside with rfl | rfl | rfl | rfl | rfl
  · exact .of_value idAt (Outcome.map_ok.mpr ⟨id, readId, rfl⟩) rfl
  · exact .of_value resourceAt (Outcome.map_ok.mpr ⟨resourceId, readResource, rfl⟩) rfl
  · exact .of_value startAt (Outcome.map_ok.mpr ⟨start, readStart, rfl⟩) rfl
  · exact .of_value endAt (Outcome.map_ok.mpr ⟨stop, readEnd, rfl⟩) rfl
  · exact .of_value ownAt (by rw [reads]; exact Outcome.map_ok.mpr ⟨own, readOwn, rfl⟩) (found _ _ _ _ _)

theorem rule_parsed {r : RuleRow} (ok : parseRuleRow lib values columns = .ok r) : Parsed lib .rules columns values r.row :=
  span_parsed RuleRow.row rfl (fun _ => rfl) (fun _ _ _ _ _ => rfl) (fun _ _ _ _ _ => rfl) ok

theorem hold_parsed {r : HoldRow} (ok : parseHoldRow lib values columns = .ok r) : Parsed lib .holds columns values r.row :=
  span_parsed HoldRow.row rfl (fun _ => rfl) (fun _ _ _ _ _ => rfl) (fun _ _ _ _ _ => rfl) ok

theorem booking_parsed {r : BookingRow} (ok : parseBookingRow lib values columns = .ok r) :
    Parsed lib .bookings columns values r.row := by
  unfold parseBookingRow at ok
  obtain ⟨_, arity, ok⟩ := Outcome.bind_ok.mp ok
  obtain ⟨_, known, ok⟩ := Outcome.bind_ok.mp ok
  split at ok
  · cases ok
  obtain ⟨label, readLabel, ok⟩ := Outcome.bind_ok.mp ok
  obtain ⟨id, readId, ok⟩ := Outcome.bind_ok.mp ok
  obtain ⟨resourceId, readResource, ok⟩ := Outcome.bind_ok.mp ok
  obtain ⟨start, readStart, ok⟩ := Outcome.bind_ok.mp ok
  obtain ⟨stop, readEnd, ok⟩ := Outcome.bind_ok.mp ok
  cases ok
  refine ⟨checkColumnArity_ok arity, columns_known rfl (rejectUnknownInsertColumns_ok known), fun _ => ?_⟩
  obtain ⟨idValue, idAt, readId⟩ := required_parse readId
  obtain ⟨resourceValue, resourceAt, readResource⟩ := required_parse readResource
  obtain ⟨startValue, startAt, readStart⟩ := required_parse readStart
  obtain ⟨endValue, endAt, readEnd⟩ := required_parse readEnd
  rw [colValue_eq Schema.bookings.order rfl] at idAt resourceAt startAt endAt readLabel
  intro field inside
  simp only [Schema.bookings, Schema.spanned, List.mem_cons, List.not_mem_nil, or_false] at inside
  rcases inside with rfl | rfl | rfl | rfl | rfl
  · exact .of_value idAt (Outcome.map_ok.mpr ⟨id, readId, rfl⟩) rfl
  · exact .of_value resourceAt (Outcome.map_ok.mpr ⟨resourceId, readResource, rfl⟩) rfl
  · exact .of_value startAt (Outcome.map_ok.mpr ⟨start, readStart, rfl⟩) rfl
  · exact .of_value endAt (Outcome.map_ok.mpr ⟨stop, readEnd, rfl⟩) rfl
  · exact .of_optional (.nullable .text) readLabel (fun _ => rfl) rfl rfl

/-- A booking from a hold has a column list. -/
theorem holdBooking_parsed {r : CommitRow} (listing : columns ≠ []) (ok : parseHoldBookingRow lib values columns = .ok r) :
    Parsed lib .heldBookings columns values r.row := by
  unfold parseHoldBookingRow at ok
  obtain ⟨_, arity, ok⟩ := Outcome.bind_ok.mp ok
  split at ok
  · cases ok
  obtain ⟨_, known, ok⟩ := Outcome.bind_ok.mp ok
  obtain ⟨label, readLabel, ok⟩ := Outcome.bind_ok.mp ok
  obtain ⟨holdId, readHold, ok⟩ := Outcome.bind_ok.mp ok
  obtain ⟨bookingId, readId, ok⟩ := Outcome.bind_ok.mp ok
  cases ok
  refine ⟨checkColumnArity_ok arity, columns_known rfl (rejectUnknownInsertColumns_ok known), fun _ => ?_⟩
  obtain ⟨holdValue, holdAt, readHold⟩ := required_parse readHold
  obtain ⟨idValue, idAt, readId⟩ := required_parse readId
  have names : namesOf Schema.heldBookings.order columns = columns := if_neg (by simpa using listing)
  rw [names]
  intro field inside
  simp only [Schema.heldBookings, List.mem_cons, List.not_mem_nil, or_false] at inside
  rcases inside with rfl | rfl | rfl
  · exact .of_value idAt (Outcome.map_ok.mpr ⟨bookingId, readId, rfl⟩) rfl
  · exact .of_value holdAt (Outcome.map_ok.mpr ⟨holdId, readHold, rfl⟩) rfl
  · exact .of_optional (.nullable .text) readLabel (fun _ => rfl) rfl rfl

/-! ## The assignments of an UPDATE -/

/-- A loop over assignments that keeps what they say: `view` is the content of each field so far. -/
def Assigns (lib : WriteLibrary) {σ : Type} (schema : Schema) (assign : σ → Assignment → Except SqlError σ)
    (view : σ → String → Option Content) : Prop :=
  ∀ s a s', assign s a = .ok s' → ∃ field ∈ schema.fields, ∃ content, assignmentColumnName lib a = .ok field.column ∧
    field.column ≠ "id" ∧ field.kind.read lib a.value = .ok content ∧ view s' field.column = some content ∧
    ∀ other, other ≠ field.column → view s' other = view s other

/-- What a loop over assignments leaves. -/
structure Ran (lib : WriteLibrary) (schema : Schema) (assignments : List Assignment) (before after : String → Option Content) :
    Prop where
  aligned : (assignedColumns lib assignments).length = assignments.length
  others : "id" ∉ assignedColumns lib assignments
  kept : ∀ column, column ∉ assignedColumns lib assignments → after column = before column
  placed : (assignedColumns lib assignments).Nodup → ∀ (i : Nat) (a : Assignment), assignments[i]? = some a →
    ∃ field ∈ schema.fields, ∃ content, (assignedColumns lib assignments)[i]? = some field.column ∧
      field.kind.read lib a.value = .ok content ∧ after field.column = some content

theorem assignedColumns_cons {a : Assignment} {rest : List Assignment} {column : String}
    (named : assignmentColumnName lib a = .ok column) : assignedColumns lib (a :: rest) = column :: assignedColumns lib rest := by
  apply List.filterMap_cons_some
  rw [named]
  rfl

/-- Each assignment changes its own field, so the last one of a column stays. -/
theorem Assigns.run {σ : Type} {assign : σ → Assignment → Except SqlError σ} {view : σ → String → Option Content}
    (assigns : Assigns lib schema assign view) {assignments : List Assignment} {s s' : σ}
    (ok : assignments.foldlM assign s = .ok s') : Ran lib schema assignments (view s) (view s') := by
  induction assignments generalizing s with
  | nil =>
      cases ok
      exact ⟨rfl, List.not_mem_nil, fun _ _ => rfl, fun _ i a at_ => by cases at_⟩
  | cons a rest ih =>
      rw [List.foldlM_cons] at ok
      obtain ⟨t, first, ok⟩ := Outcome.bind_ok.mp ok
      have ran := ih ok
      obtain ⟨field, inside, content, named, notId, read, stored, kept⟩ := assigns s a t first
      have columns : assignedColumns lib (a :: rest) = field.column :: assignedColumns lib rest := assignedColumns_cons named
      constructor
      · rw [columns, List.length_cons, ran.aligned, List.length_cons]
      · rw [columns, List.mem_cons]
        rintro (same | later)
        · exact notId same.symm
        · exact ran.others later
      · intro column unnamed
        rw [columns, List.mem_cons, not_or] at unnamed
        rw [ran.kept column unnamed.2, kept column unnamed.1]
      · intro nodup i b at_
        rw [columns, List.nodup_cons] at nodup
        rw [columns]
        cases i with
        | zero =>
            cases at_
            exact ⟨field, inside, content, rfl, read, by rw [ran.kept _ nodup.1, stored]⟩
        | succ i => exact ran.placed nodup.2 i b at_

/-- The row of an UPDATE, whose id is in the WHERE clause. -/
theorem Ran.faithful_iff {assignments : List Assignment} {before after : String → Option Content} {value : Expr} {id : Ulid}
    (ran : Ran lib schema assignments before after) (read : parseUlid lib value = .ok id)
    (hasId : ⟨"id", .ulid, none⟩ ∈ schema.fields) (idStored : row.lookup "id" = some (.ulid id))
    (stored : ∀ field ∈ schema.fields, field.column ≠ "id" → field.default = before field.column ∧
      row.lookup field.column = after field.column ∧ (row.lookup field.column).isSome = true) :
    Faithful lib schema ("id" :: assignedColumns lib assignments) (value :: assignments.map (·.value)) row ↔
      (assignedColumns lib assignments).Nodup := by
  have sameLength : ("id" :: assignedColumns lib assignments).length = (value :: assignments.map (·.value)).length := by
    simp [ran.aligned]
  have notId : ∀ column ∈ assignedColumns lib assignments, column ≠ "id" := fun column inside same => ran.others (same ▸ inside)
  constructor
  · intro faithful
    exact (List.nodup_cons.mp (faithful.nodup sameLength.le)).2
  · intro nodup
    constructor
    · intro i e at_
      cases i with
      | zero =>
          cases at_
          exact ⟨_, hasId, .ulid id, rfl, Outcome.map_ok.mpr ⟨id, read, rfl⟩, idStored⟩
      | succ i =>
          rw [List.getElem?_cons_succ, List.getElem?_map, Option.map_eq_some_iff] at at_
          obtain ⟨a, there, rfl⟩ := at_
          obtain ⟨field, inside, content, named, reads, left⟩ := ran.placed nodup i a there
          have other := notId _ (List.mem_of_getElem? named)
          exact ⟨field, inside, content, named, reads, by rw [(stored field inside other).2.1, left]⟩
    · intro i j column _ _ first second
      have all : ("id" :: assignedColumns lib assignments).Nodup := List.nodup_cons.mpr ⟨ran.others, nodup⟩
      have same := position_of_nodup all first
      rw [position_of_nodup all second] at same
      exact (Option.some.inj same).symm
    · intro field inside unnamed
      rw [← sameLength, List.take_length, List.mem_cons, not_or] at unnamed
      obtain ⟨default, left, filled⟩ := stored field inside unnamed.1
      obtain ⟨content, found⟩ := Option.isSome_iff_exists.mp filled
      exact ⟨content, by rw [default, ← ran.kept _ unnamed.2, ← left, found], found⟩

/-- An assignment of one column: its field gets the reading, the other fields keep what they have. -/
theorem lookup_other {α : Type} {column other : String} (different : other ≠ column) (a b : α) (rest : List (String × α)) :
    List.lookup other ((column, a) :: rest) = List.lookup other ((column, b) :: rest) := by
  simp [List.lookup_cons, beq_eq_false_iff_ne.mpr different]

theorem lookup_tail {α : Type} {other : String} {head : String × α} {rest rest' : List (String × α)}
    (same : List.lookup other rest = List.lookup other rest') :
    List.lookup other (head :: rest) = List.lookup other (head :: rest') := by
  obtain ⟨column, content⟩ := head
  rw [List.lookup_cons, List.lookup_cons, same]

/-- An assignment to the column of a field reads its value and sets that field alone. -/
theorem assigns_column {σ α : Type} (view : σ → String → Option Content) {s s' : σ} {a : Assignment} {parse : Except SqlError α}
    {set : α → σ} (field : Field) (wrap : α → Content) (ok : (do let x ← parse; return set x) = .ok s')
    (inside : field ∈ schema.fields) (named : assignmentColumnName lib a = .ok field.column) (notId : field.column ≠ "id")
    (reads : field.kind.read lib a.value = wrap <$> parse) (stored : ∀ x, view (set x) field.column = some (wrap x))
    (kept : ∀ x other, other ≠ field.column → view (set x) other = view s other) :
    ∃ field ∈ schema.fields, ∃ content, assignmentColumnName lib a = .ok field.column ∧
      field.column ≠ "id" ∧ field.kind.read lib a.value = .ok content ∧ view s' field.column = some content ∧
      ∀ other, other ≠ field.column → view s' other = view s other := by
  obtain ⟨x, read, same⟩ := Outcome.bind_ok.mp ok
  cases same
  exact ⟨field, inside, wrap x, named, notId, reads.trans (Outcome.map_ok.mpr ⟨x, read, rfl⟩), stored x, kept x⟩

theorem assignResource_assigns : Assigns lib .resourceChanges (assignResource lib) fun changes column =>
    List.lookup column (changes.row 0) := by
  intro s a s' ok
  obtain ⟨column, named, ok⟩ := Outcome.bind_ok.mp ok
  split at ok
  · apply assigns_column (fun changes column => List.lookup column (changes.row 0)) ⟨"name", .textOrNull, some .unchanged⟩
      (.nullable .text) ok (by simp [Schema.resourceChanges]) named (by simp) rfl (fun _ => rfl)
    intro _ other different
    exact lookup_tail (lookup_other different _ _ _)
  · apply assigns_column (fun changes column => List.lookup column (changes.row 0)) ⟨"capacity", .u32, some .unchanged⟩
      .count ok (by simp [Schema.resourceChanges]) named (by simp) rfl (fun _ => rfl)
    intro _ other different
    exact lookup_tail (lookup_tail (lookup_other different _ _ _))
  · apply assigns_column (fun changes column => List.lookup column (changes.row 0)) ⟨"buffer_after", .msOrNull, some .unchanged⟩
      (.nullable .ms) ok (by simp [Schema.resourceChanges]) named (by simp) rfl (fun _ => rfl)
    intro _ other different
    exact lookup_tail (lookup_tail (lookup_tail (lookup_other different _ _ _)))
  · cases ok

/-- The contents that an UPDATE of a rule has assigned so far. -/
def RuleChanges.view (changes : RuleChanges) (column : String) : Option Content :=
  ([("start", changes.start.map Content.ms), ("end", changes.stop.map .ms), ("blocking", changes.blocking.map .bool)].lookup
    column).join

theorem assignRule_assigns : Assigns lib .ruleChanges (assignRule lib) RuleChanges.view := by
  intro s a s' ok
  obtain ⟨column, named, ok⟩ := Outcome.bind_ok.mp ok
  split at ok
  · apply assigns_column RuleChanges.view ⟨"start", .ms, none⟩ .ms ok (by simp [Schema.ruleChanges]) named (by simp) rfl (fun _ => rfl)
    intro _ other different
    exact congrArg Option.join (lookup_other different _ _ _)
  · apply assigns_column RuleChanges.view ⟨"end", .ms, none⟩ .ms ok (by simp [Schema.ruleChanges]) named (by simp) rfl (fun _ => rfl)
    intro _ other different
    exact congrArg Option.join (lookup_tail (lookup_other different _ _ _))
  · apply assigns_column RuleChanges.view ⟨"blocking", .bool, none⟩ .bool ok (by simp [Schema.ruleChanges]) named (by simp) rfl
      (fun _ => rfl)
    intro _ other different
    exact congrArg Option.join (lookup_tail (lookup_tail (lookup_other different _ _ _)))
  · cases ok

/-- The contents that an UPDATE of a hold has assigned so far. -/
def HoldChanges.view (changes : HoldChanges) (column : String) : Option Content :=
  ([("booking_id", changes.bookingId.map Content.ulid), ("label", some (.nullable .text changes.label))].lookup column).join

theorem assignHold_assigns : Assigns lib .commits (assignHold lib) HoldChanges.view := by
  intro s a s' ok
  obtain ⟨column, named, ok⟩ := Outcome.bind_ok.mp ok
  split at ok
  · apply assigns_column HoldChanges.view ⟨"booking_id", .ulid, none⟩ .ulid ok (by simp [Schema.commits]) named (by simp) rfl (fun _ => rfl)
    intro _ other different
    exact congrArg Option.join (lookup_other different _ _ _)
  · apply assigns_column HoldChanges.view ⟨"label", .textOrNull, some .null⟩ (.nullable .text) ok (by simp [Schema.commits]) named
      (by simp) rfl (fun _ => rfl)
    intro _ other different
    exact congrArg Option.join (lookup_tail (lookup_other different _ _ _))
  · cases ok

/-! ## Statements -/

theorem parseRows_ok {α : Type} {rows : List (List Expr)} {parse : List Expr → Except SqlError α} {parsed : List α}
    (ok : parseRows rows parse = .ok parsed) : List.Forall₂ (fun row p => parse row = .ok p) rows parsed := by
  have each := Outcome.mapM_ok.mp ok
  have rowsOf : rows = rows.zipIdx.map Prod.fst := (List.zipIdx_map_fst _ _).symm
  rw [rowsOf, List.forall₂_map_left_iff]
  refine each.imp fun row p passed => ?_
  cases read : parse row.1 with
  | ok a =>
      rw [read] at passed
      cases passed
      rfl
  | error e =>
      rw [read] at passed
      cases passed

theorem extractAllInsertRows_ok {written : Insert} {rows : List (List Expr)} (ok : extractAllInsertRows written = .ok rows) :
    written.rows = rows := by
  unfold extractAllInsertRows at ok
  unfold Insert.rows
  split at ok
  · cases ok
  · next listed source =>
      split at ok
      · cases ok
      · split at ok
        · cases ok
        · cases ok
          rw [source]
          rfl
  · cases ok

theorem forall₂_faithful_iff {α : Type} {toRow : α → Row} {parse : List Expr → Except SqlError α} {rows : List (List Expr)}
    {parsed : List α} (ordered : schema.Ordered) (each : List.Forall₂ (fun row p => parse row = .ok p) rows parsed)
    (means : ∀ values p, parse values = .ok p → Parsed lib schema columns values (toRow p)) :
    List.Forall₂ (fun supplied row => Faithful lib schema supplied.1 supplied.2 row)
        (rows.map (namesOf schema.order columns, ·)) (parsed.map toRow) ↔ ∀ values ∈ rows, RowClear schema columns values := by
  induction each with
  | nil => simp
  | cons first _ ih =>
      rw [List.map_cons, List.map_cons, List.forall₂_cons, List.forall_mem_cons, ih, (means _ _ first).faithful_iff ordered]

/-- One row or many, the command is one for the schema and has the rows. -/
theorem singleRow_rows {α : Type} {toRow : α → Row} {single : α → WriteCommand} {batch : List α → WriteCommand}
    (one : ∀ p, (single p).schema = schema ∧ (single p).rows = [toRow p])
    (many : ∀ ps, (batch ps).schema = schema ∧ (batch ps).rows = ps.map toRow) (parsed : List α) :
    (singleRow single batch parsed).schema = schema ∧ (singleRow single batch parsed).rows = parsed.map toRow := by
  unfold singleRow
  split
  · next p => exact one p
  · exact many parsed

theorem resources_ordered : Schema.resources.Ordered := by
  constructor <;> decide

theorem rules_ordered : Schema.rules.Ordered := by
  constructor <;> decide

theorem holds_ordered : Schema.holds.Ordered := by
  constructor <;> decide

theorem bookings_ordered : Schema.bookings.Ordered := by
  constructor <;> decide

theorem heldBookings_ordered : Schema.heldBookings.Ordered := by
  constructor <;> decide

/-- An INSERT stores its rows when it is clear, as soon as its rows are parsed by its schema. -/
theorem insert_stores {α : Type} {toRow : α → Row} {parse : List Expr → List String → Except SqlError α} {parsed : List α}
    {written : Insert} {command : WriteCommand} (own : (WriteStatement.insert written).schema lib = some schema)
    (ordered : schema.Ordered)
    (read : (do parseRows (← extractAllInsertRows written) fun row => parse row (extractColumnNames lib written)) = .ok parsed)
    (means : ∀ values p, parse values (extractColumnNames lib written) = .ok p →
      Parsed lib schema (extractColumnNames lib written) values (toRow p))
    (shown : command.schema = schema ∧ command.rows = parsed.map toRow) :
    Stores lib (.insert written) command ↔ Clear lib (.insert written) := by
  obtain ⟨rows, extracted, each⟩ := Outcome.bind_ok.mp read
  have all := forall₂_faithful_iff ordered (parseRows_ok each) means
  rw [← extractAllInsertRows_ok extracted] at all
  unfold Stores
  rw [own, shown.1, shown.2]
  constructor
  · intro ⟨_, stored⟩ other same
    rw [own] at same
    cases same
    exact all.mp stored
  · intro clear
    exact ⟨rfl, all.mpr (clear schema own)⟩

/-- An accepted INSERT is one for its table, whose rows are parsed one by one. -/
theorem parseInsert_stores {written : Insert} {command : WriteCommand} (ok : parseInsert lib written = .ok command) :
    Stores lib (.insert written) command ↔ Clear lib (.insert written) := by
  obtain ⟨table, named, ok⟩ := Outcome.bind_ok.mp ok
  obtain ⟨_, _, ok⟩ := Outcome.bind_ok.mp ok
  have own : (WriteStatement.insert written).schema lib = insertSchema table (extractColumnNames lib written) := by
    simp only [WriteStatement.schema, named, Except.toOption, Option.bind_some]
  split at ok
  · obtain ⟨parsed, read, same⟩ := Outcome.bind_ok.mp ok
    cases same
    apply insert_stores own resources_ordered read (fun _ _ => resource_parsed)
    apply singleRow_rows <;> exact fun _ => ⟨rfl, rfl⟩
  · obtain ⟨parsed, read, same⟩ := Outcome.bind_ok.mp ok
    cases same
    apply insert_stores own rules_ordered read (fun _ _ => rule_parsed)
    apply singleRow_rows <;> exact fun _ => ⟨rfl, rfl⟩
  · obtain ⟨parsed, read, same⟩ := Outcome.bind_ok.mp ok
    cases same
    apply insert_stores own holds_ordered read (fun _ _ => hold_parsed)
    apply singleRow_rows <;> exact fun _ => ⟨rfl, rfl⟩
  · split at ok
    · next held =>
        obtain ⟨parsed, read, same⟩ := Outcome.bind_ok.mp ok
        cases same
        have listing : extractColumnNames lib written ≠ [] := by
          intro bare
          rw [bare] at held
          cases held
        have own' : (WriteStatement.insert written).schema lib = some .heldBookings := by rw [own, insertSchema, if_pos held]
        exact insert_stores own' heldBookings_ordered read (fun _ _ => holdBooking_parsed listing) ⟨rfl, rfl⟩
    · next free =>
        obtain ⟨parsed, read, same⟩ := Outcome.bind_ok.mp ok
        cases same
        have own' : (WriteStatement.insert written).schema lib = some .bookings := by rw [own, insertSchema, if_neg free]
        apply insert_stores own' bookings_ordered read (fun _ _ => booking_parsed)
        apply singleRow_rows <;> exact fun _ => ⟨rfl, rfl⟩
  · cases ok

theorem extractWhereId_ok {selection : Option Expr} {id : Ulid} (ok : extractWhereId lib selection = .ok id) :
    ∃ value, whereValue selection = [value] ∧ parseUlid lib value = .ok id := by
  unfold extractWhereId at ok
  split at ok
  · next left right =>
      split at ok
      · exact ⟨right, rfl, ok⟩
      · cases ok
  · cases ok

theorem assigned_ok {α : Type} {column : String} {value : Option α} {a : α} (ok : assigned column value = .ok a) :
    value = some a := by
  cases value with
  | none => cases ok
  | some b =>
      cases ok
      rfl

/-- An UPDATE stores its row when it is clear, as soon as its assignments have run. -/
theorem update_stores {changed : Update} {command : WriteCommand} {before after : String → Option Content} {id : Ulid}
    (own : (WriteStatement.update changed).schema lib = some schema)
    (located : extractWhereId lib changed.selection = .ok id)
    (ran : Ran lib schema changed.assignments before after) (shown : command.schema = schema ∧ command.rows = [row])
    (hasId : ⟨"id", .ulid, none⟩ ∈ schema.fields) (idStored : row.lookup "id" = some (.ulid id))
    (stored : ∀ field ∈ schema.fields, field.column ≠ "id" → field.default = before field.column ∧
      row.lookup field.column = after field.column ∧ (row.lookup field.column).isSome = true) :
    Stores lib (.update changed) command ↔ Clear lib (.update changed) := by
  obtain ⟨value, right, read⟩ := extractWhereId_ok located
  have one := ran.faithful_iff read hasId idStored stored
  unfold Stores
  rw [own, shown.1, shown.2, WriteStatement.supplied, right]
  change _ ↔ (assignedColumns lib changed.assignments).Nodup
  rw [← one]
  constructor
  · intro ⟨_, all⟩
    exact (List.forall₂_cons.mp all).1
  · intro faithful
    exact ⟨rfl, .cons faithful .nil⟩

/-- An accepted UPDATE is one for its table, whose assignments are read one by one. -/
theorem parseUpdate_stores {changed : Update} {command : WriteCommand}
    (ok : parseUpdate lib changed.table changed.assignments changed.selection = .ok command) :
    Stores lib (.update changed) command ↔ Clear lib (.update changed) := by
  obtain ⟨table, named, ok⟩ := Outcome.bind_ok.mp ok
  obtain ⟨id, located, ok⟩ := Outcome.bind_ok.mp ok
  have own : (WriteStatement.update changed).schema lib = updateSchema table := by
    simp only [WriteStatement.schema, named, Except.toOption, Option.bind_some]
  split at ok
  · obtain ⟨changes, folded, same⟩ := Outcome.bind_ok.mp ok
    cases same
    apply update_stores own located (assignResource_assigns.run folded) ⟨rfl, rfl⟩ (by decide) rfl
    intro field inside other
    simp only [Schema.resourceChanges, List.mem_cons, List.not_mem_nil, or_false] at inside
    rcases inside with rfl | rfl | rfl | rfl
    · exact absurd rfl other
    · exact ⟨rfl, rfl, rfl⟩
    · exact ⟨rfl, rfl, rfl⟩
    · exact ⟨rfl, rfl, rfl⟩
  · obtain ⟨changes, folded, ok⟩ := Outcome.bind_ok.mp ok
    obtain ⟨start, hasStart, ok⟩ := Outcome.bind_ok.mp ok
    obtain ⟨stop, hasEnd, ok⟩ := Outcome.bind_ok.mp ok
    obtain ⟨blocking, hasBlocking, same⟩ := Outcome.bind_ok.mp ok
    cases same
    apply update_stores own located (assignRule_assigns.run folded) ⟨rfl, rfl⟩ (by decide) rfl
    intro field inside other
    simp only [Schema.ruleChanges, List.mem_cons, List.not_mem_nil, or_false] at inside
    rcases inside with rfl | rfl | rfl | rfl
    · exact absurd rfl other
    · exact ⟨rfl, (congrArg (Option.map Content.ms) (assigned_ok hasStart)).symm, rfl⟩
    · exact ⟨rfl, (congrArg (Option.map Content.ms) (assigned_ok hasEnd)).symm, rfl⟩
    · exact ⟨rfl, (congrArg (Option.map Content.bool) (assigned_ok hasBlocking)).symm, rfl⟩
  · obtain ⟨changes, folded, ok⟩ := Outcome.bind_ok.mp ok
    obtain ⟨bookingId, hasBooking, same⟩ := Outcome.bind_ok.mp ok
    cases same
    apply update_stores own located (assignHold_assigns.run folded) ⟨rfl, rfl⟩ (by decide) rfl
    intro field inside other
    simp only [Schema.commits, List.mem_cons, List.not_mem_nil, or_false] at inside
    rcases inside with rfl | rfl | rfl
    · exact absurd rfl other
    · exact ⟨rfl, (congrArg (Option.map Content.ulid) (assigned_ok hasBooking)).symm, rfl⟩
    · exact ⟨rfl, rfl, rfl⟩
  · cases ok

/-- An accepted write stores every value where it was named exactly when no name is given twice, no
    row is longer than its table's order, and a column list has the id. -/
theorem write_stores {statement : WriteStatement} {command : WriteCommand} (accepted : parseWrite lib statement = .ok command) :
    Stores lib statement command ↔ Clear lib statement := by
  cases statement with
  | insert written => exact parseInsert_stores accepted
  | update changed =>
      obtain ⟨_, _, ok⟩ := Outcome.bind_ok.mp accepted
      split at ok
      · cases ok
      · split at ok
        · cases ok
        · exact parseUpdate_stores ok

end

end

/-- Ids, names and numbers as they are written below. -/
def plainWrites : WriteLibrary where
  ulidFromString s := if s = "00000000000000000000000001" then .ok 1
    else if s = "00000000000000000000000002" then .ok 2 else .error "invalid length"
  toLowercase s := s
  displayExpr _ := "expression"
  displayOperator _ := "operator"
  debugExpr _ := "expression"
  debugValue _ := "value"
  f64NonZero n := some (n != "0")

def firstId : Expr := .value (.singleQuotedString "00000000000000000000000001")
def secondId : Expr := .value (.singleQuotedString "00000000000000000000000002")

def insertInto (table : String) (columns : List String) (row : List Expr) : WriteStatement :=
  .insert ⟨some [.identifier table], columns, some (.values [row]), false, false⟩

/-- The columns of a rule in another order. -/
def reorderedRule : WriteStatement :=
  insertInto "rules" ["blocking", "end", "start", "resource_id", "id"]
    [.value (.boolean true), .value (.number "20" false), .value (.number "10" false), secondId, firstId]

theorem reorderedRule_clear : Clear plainWrites reorderedRule := by
  intro schema own values inside
  simp [RowClear, extractColumnNames, plainWrites]

theorem reorderedRule_stored : Stores plainWrites reorderedRule (.insertRule ⟨1, 2, 10, 20, true⟩) :=
  (write_stores (by decide +kernel)).mpr reorderedRule_clear

/-- A parent without an id becomes an id as well, the second of two equal columns is dropped, and so
    is a sixth value of a rule. -/
theorem misplaced_values :
    (parseWrite plainWrites (insertInto "resources" ["parent_id"] [firstId]) =
        .ok (.insertResource ⟨1, some 1, none, 1, none⟩) ∧
      ¬ Stores plainWrites (insertInto "resources" ["parent_id"] [firstId]) (.insertResource ⟨1, some 1, none, 1, none⟩)) ∧
    (parseWrite plainWrites (.update ⟨.table [.identifier "resources"], [⟨some [.identifier "capacity"], .value (.number "1" false)⟩,
          ⟨some [.identifier "capacity"], .value (.number "2" false)⟩], some (.binaryOp (.identifier "id") .eq firstId), false, false,
          false⟩) = .ok (.updateResource 1 ⟨none, some 2, none⟩) ∧
      ¬ Stores plainWrites (.update ⟨.table [.identifier "resources"], [⟨some [.identifier "capacity"], .value (.number "1" false)⟩,
          ⟨some [.identifier "capacity"], .value (.number "2" false)⟩], some (.binaryOp (.identifier "id") .eq firstId), false, false,
          false⟩) (.updateResource 1 ⟨none, some 2, none⟩)) ∧
    (parseWrite plainWrites (insertInto "rules" [] [firstId, secondId, .value (.number "10" false), .value (.number "20" false),
          .value (.boolean true), .value .null]) = .ok (.insertRule ⟨1, 2, 10, 20, true⟩) ∧
      ¬ Stores plainWrites (insertInto "rules" [] [firstId, secondId, .value (.number "10" false), .value (.number "20" false),
          .value (.boolean true), .value .null]) (.insertRule ⟨1, 2, 10, 20, true⟩)) := by
  refine ⟨⟨by decide +kernel, fun stores => ?_⟩, ⟨by decide +kernel, fun stores => ?_⟩, ⟨by decide +kernel, fun stores => ?_⟩⟩
  · have clear := (@parseInsert_stores plainWrites _ _ (by decide +kernel)).mp stores
    have listed := (clear .resources rfl [firstId] (by simp [Insert.rows, InsertBody.rows])).2.2
    simp [extractColumnNames, plainWrites] at listed
  · have clear := (@parseUpdate_stores plainWrites _ _ (by decide +kernel)).mp stores
    revert clear
    unfold Clear
    decide +kernel
  · have clear := (@parseInsert_stores plainWrites _ _ (by decide +kernel)).mp stores
    have short := (clear .rules rfl _ (by simp [Insert.rows, InsertBody.rows]; rfl)).2.1 rfl
    revert short
    decide

end Sql

end Deltat
