import Deltat.Clauses
import Deltat.MergedReads

/-! # A SELECT answers its WHERE clause

A row is returned when every conjunct lets it pass, and an availability read is one for the
resources, the window, the least length and the number that all conjuncts agree on.
-/

namespace Deltat

open Lib Limits

namespace Sql

/-- The tables that are read for resources. -/
inductive ReadTable where
  | rules
  | bookings
  | holds
  | availability
  deriving DecidableEq

def ReadTable.name : ReadTable → String
  | rules => "rules"
  | bookings => "bookings"
  | holds => "holds"
  | availability => "availability"

/-- A statement that reads a table under a clause. -/
def Query.Reads (lib : Library) (query : Query) (table : ReadTable) (clause : Expr) : Prop :=
  ∃ select first rest, query.body = some select ∧ select.tables = first :: rest ∧
    tableFactorName lib first.relation = .ok table.name ∧ select.selection = some clause

/-- One kind of row, and the columns a clause can compare. -/
structure RowKind (α : Type) where
  row : Ulid → Interval → Option α
  home : α → Ulid
  start : α → Ms
  stop : α → Ms

def ruleRows : RowKind RuleInfo := ⟨Interval.rule, (·.resourceId), (·.start), (·.stop)⟩

def bookingRows : RowKind BookingInfo := ⟨Interval.booking, (·.resourceId), (·.start), (·.stop)⟩

def holdRows : RowKind HoldInfo := ⟨Interval.hold, (·.resourceId), (·.start), (·.stop)⟩

section Meaning

variable (lib : Library) (s : InMemoryStore) (now : Ms) (clause : Expr)

/-- The rows of a kind that a resource has. -/
def RowKind.stored {α : Type} (kind : RowKind α) (r : Ulid) : List α :=
  ((s.getResource r).elim [] (·.intervals)).filterMap (kind.row r)

/-- Whether rows are those that the clause admits, each as often as it is stored. -/
def RowKind.Exactly {α : Type} [DecidableEq α] (kind : RowKind α) (rows : List α) : Prop :=
  ∀ b, rows.count b =
    if admits lib (kind.home b) (kind.start b) (kind.stop b) clause then (kind.stored s (kind.home b)).count b else 0

/-- The availability of the resources in all lists, with the least length that all conjuncts give. -/
def intended (start stop : Ms) : Except EngineError (List (Ulid × Span)) :=
  (agreed (durations lib clause)).elim (.ok []) fun shortest =>
    s.getAvailabilityMulti now (common (resources lib clause)) start stop shortest

/-- When as many of those resources are free as all conjuncts ask for. -/
def intendedMerged (start stop : Ms) : Except EngineError (List Span) :=
  (agreed (durations lib clause)).elim (.ok []) fun shortest =>
    (agreed (numbers lib clause)).elim (.ok []) fun number =>
      s.computeMultiAvailability now (common (resources lib clause)) start stop (number.getD 1) shortest

/-- Whether an answer is the one the clause asks for. -/
def Right : ReadTable → Answer → Prop
  | .rules, .rules rows => ruleRows.Exactly lib s clause rows
  | .bookings, .bookings rows => bookingRows.Exactly lib s clause rows
  | .holds, .holds rows => holdRows.Exactly lib s clause rows
  | .availability, .availability rows => ∃ start stop, windowStart lib clause = some start ∧
      windowEnd lib clause = some stop ∧ ∃ wanted, intended lib s now clause start stop = .ok wanted ∧ rows.Perm wanted
  | .availability, .merged rows => ∃ start stop, windowStart lib clause = some start ∧
      windowEnd lib clause = some stop ∧ intendedMerged lib s now clause start stop = .ok rows
  | _, _ => False

/-- What an availability read takes from the clause. -/
def addressed : List Ulid := if lists lib clause = [] then (resources lib clause).flatten else listed lib clause

/-- Whether a read of a window can find free time. -/
def Finds (start stop : Ms) : Prop :=
  InMemoryStore.Readable start stop (durations lib clause).getLast? ∧
    (numbers lib clause ≠ [] → satSub stop start ≤ maxQueryWindowMs)

/-- Whether all conjuncts about resources name the same ones. -/
def NamesAlike : Prop := ∀ r ∈ (resources lib clause).flatten, r ∈ common (resources lib clause)

/-- Whether a read of spans answers with no row, for too many resources or since no span can pass. -/
def FindsNothing : Prop :=
  maxInClauseIds < (resources lib clause).flatten.length ∨
    ∀ span : Span, span.Representable → span.end ≤ maxValidTimestampMs →
      spanFiltersMatch (comparisons lib clause) span.start span.end = false

/-- Whether the repeated conjuncts of an availability read say the same. Where they do not, the read has to be one that
never finds anything. -/
def Agrees : Prop :=
  ∀ start stop, windowStart lib clause = some start → windowEnd lib clause = some stop → Finds lib clause start stop →
    (addressed lib clause).length ≤ maxInClauseIds → ∀ free : Ulid → Bool,
      (numbers lib clause).getLast?.getD 1 ≤ (addressed lib clause).countP free →
        agreed (durations lib clause) ≠ none ∧ agreed (numbers lib clause) ≠ none ∧
          (numbers lib clause).getLast?.getD 1 ≤ (common (resources lib clause)).countP free

/-- When a clause is answered as it is meant. -/
def Consistent : ReadTable → Prop
  | .rules => NamesAlike lib clause
  | .bookings | .holds => NamesAlike lib clause ∨ FindsNothing lib clause
  | .availability => Agrees lib clause

end Meaning

/-! ## Rows -/

section Rows

variable {α : Type} {kind : RowKind α} {lib : Library} {clause : Expr} {s : InMemoryStore}

/-- What is read of a row: its columns are those of an interval, and every interval can be one. -/
structure RowKind.Faithful (kind : RowKind α) : Prop where
  columns : ∀ r i b, kind.row r i = some b → kind.home b = r ∧ kind.start b = i.span.start ∧ kind.stop b = i.span.end
  makes : ∀ r span, ∃ i b, i.span = span ∧ kind.row r i = some b

theorem ruleRows_faithful : ruleRows.Faithful where
  columns r i b made := by
    simp only [ruleRows, Interval.rule] at made ⊢
    split at made <;> cases made <;> exact ⟨rfl, rfl, rfl⟩
  makes r span := ⟨⟨0, span, .blocking⟩, _, rfl, rfl⟩

theorem bookingRows_faithful : bookingRows.Faithful where
  columns r i b made := by
    simp only [bookingRows, Interval.booking] at made ⊢
    split at made <;> cases made
    exact ⟨rfl, rfl, rfl⟩
  makes r span := ⟨⟨0, span, .booking none⟩, _, rfl, rfl⟩

theorem holdRows_faithful : holdRows.Faithful where
  columns r i b made := by
    simp only [holdRows, Interval.hold] at made ⊢
    split at made <;> cases made
    exact ⟨rfl, rfl, rfl⟩
  makes r span := ⟨⟨0, span, .hold 0⟩, _, rfl, rfl⟩

theorem RowKind.Faithful.mem_stored (faithful : kind.Faithful) {r : Ulid} {b : α} (inside : b ∈ kind.stored s r) :
    kind.home b = r ∧ ∃ rs i, s.getResource r = some rs ∧ i ∈ rs.intervals ∧ kind.start b = i.span.start ∧
      kind.stop b = i.span.end := by
  obtain ⟨i, here, made⟩ := List.mem_filterMap.mp inside
  obtain ⟨home, start, stop⟩ := faithful.columns r i b made
  cases present : s.getResource r with
  | none => rw [present] at here; cases here
  | some rs =>
      rw [present] at here
      exact ⟨home, rs, i, rfl, here, start, stop⟩

/-- The read behind a statement on rows. -/
def RowKind.read (kind : RowKind α) (s : InMemoryStore) (filters : List SpanFilter) :
    List Ulid → Except EngineError (List α)
  | [id] => s.getRows kind.row id filters
  | ids => InMemoryStore.readMulti (s.getRows kind.row · filters) ids

theorem getRows_ok (row : Ulid → Interval → Option α) (r : Ulid) (filters : List SpanFilter) :
    s.getRows row r filters = .ok ((((s.getResource r).elim [] (·.intervals)).filter fun i =>
      spanFiltersMatch filters i.span.start i.span.end).filterMap (row r)) := by
  unfold InMemoryStore.getRows
  cases s.getResource r with
  | none => rfl
  | some rs => rfl

theorem RowKind.Faithful.mem_getRows (faithful : kind.Faithful) {r : Ulid} {filters : List SpanFilter} {rows : List α}
    (ok : s.getRows kind.row r filters = .ok rows) {b : α} (inside : b ∈ rows) : kind.home b = r := by
  rw [getRows_ok] at ok
  cases ok
  obtain ⟨i, _, made⟩ := List.mem_filterMap.mp inside
  exact (faithful.columns r i b made).1

theorem RowKind.read_ok {ids : List Ulid} (few : ids.length ≤ maxInClauseIds) (filters : List SpanFilter) :
    ∃ rows, kind.read s filters ids = .ok rows := by
  unfold RowKind.read
  split
  · exact ⟨_, getRows_ok _ _ _⟩
  · unfold InMemoryStore.readMulti
    rw [if_neg (Nat.not_lt.mpr few)]
    exact InMemoryStore.readEach_succeeds fun r _ => ⟨_, getRows_ok _ _ _⟩

theorem RowKind.read_many {ids : List Ulid} (many : maxInClauseIds < ids.length) (filters : List SpanFilter) :
    kind.read s filters ids = .error (.limitExceeded "too many resource IDs") := by
  unfold RowKind.read
  split
  · exact absurd many (by simp [maxInClauseIds])
  · unfold InMemoryStore.readMulti
    rw [if_pos many]

variable [DecidableEq α]

/-- To compare the intervals is to compare the rows. -/
theorem RowKind.Faithful.count_filter (faithful : kind.Faithful) {filters : List SpanFilter} {intervals : List Interval}
    {r : Ulid} {b : α} :
    ((intervals.filter fun i => spanFiltersMatch filters i.span.start i.span.end).filterMap (kind.row r)).count b =
      if spanFiltersMatch filters (kind.start b) (kind.stop b) then (intervals.filterMap (kind.row r)).count b else 0 := by
  induction intervals with
  | nil => simp
  | cons i rest ih =>
      cases made : kind.row r i with
      | none => by_cases passes : spanFiltersMatch filters i.span.start i.span.end <;> simp [passes, made, ih]
      | some a =>
          obtain ⟨-, start, stop⟩ := faithful.columns r i a made
          by_cases same : a = b
          · subst same
            rw [start, stop] at ih ⊢
            by_cases passes : spanFiltersMatch filters i.span.start i.span.end <;> simp [passes, made, ih]
          · by_cases passes : spanFiltersMatch filters i.span.start i.span.end <;> simp [passes, made, ih, same]

theorem RowKind.Faithful.count_getRows (faithful : kind.Faithful) {r : Ulid} {filters : List SpanFilter} {rows : List α}
    (ok : s.getRows kind.row r filters = .ok rows) (b : α) :
    rows.count b = if spanFiltersMatch filters (kind.start b) (kind.stop b) then (kind.stored s r).count b else 0 := by
  rw [getRows_ok] at ok
  cases ok
  exact faithful.count_filter

theorem RowKind.Faithful.count_read (faithful : kind.Faithful) {ids : List Ulid} {filters : List SpanFilter} {rows : List α}
    (ok : kind.read s filters ids = .ok rows) (b : α) :
    rows.count b = if kind.home b ∈ ids ∧ spanFiltersMatch filters (kind.start b) (kind.stop b)
      then (kind.stored s (kind.home b)).count b else 0 := by
  rw [ite_and]
  unfold RowKind.read at ok
  split at ok
  · next r =>
      rw [faithful.count_getRows ok]
      by_cases home : kind.home b = r
      · rw [home, if_pos (List.mem_singleton_self r)]
      · have absent : (kind.stored s r).count b = 0 :=
          List.count_eq_zero.mpr fun inside => home (faithful.mem_stored inside).1
        rw [absent, ite_self, if_neg fun inside => home (List.mem_singleton.mp inside)]
  · rw [InMemoryStore.readMulti_count (fun r own here _ inside => faithful.mem_getRows here inside) ok]
    apply if_congr Iff.rfl _ rfl
    rw [getRows_ok]
    exact faithful.count_filter

/-- A read of rows is right in every state when it asks for the resources meant, or answers nothing. -/
theorem RowKind.Faithful.read_iff (faithful : kind.Faithful) {wanted ids : List Ulid} {filters : List SpanFilter}
    (inside : wanted ⊆ ids) (admitted : ∀ r start stop, admits lib r start stop clause =
      (decide (r ∈ wanted) && spanFiltersMatch filters start stop)) :
    (∀ s : InMemoryStore, s.WellFormedTree → ∀ rows, kind.read s filters ids = .ok rows → kind.Exactly lib s clause rows) ↔
      ids ⊆ wanted ∨ maxInClauseIds < ids.length ∨ ∀ span : Span, span.Representable → span.end ≤ maxValidTimestampMs →
        spanFiltersMatch filters span.start span.end = false := by
  constructor
  · intro right
    by_contra wrong
    simp only [not_or, not_lt, not_forall, List.subset_def] at wrong
    obtain ⟨⟨r, asked, unwanted⟩, few, span, proper, ends, passes⟩ := wrong
    obtain ⟨i, b, rfl, made⟩ := faithful.makes r span
    obtain ⟨home, start, stop⟩ := faithful.columns r i b made
    have stored : kind.stored (.filled i [r]) r = [b] := by
      rw [RowKind.stored, InMemoryStore.filled_getResource, if_pos (List.mem_singleton_self r)]
      simp [InMemoryStore.holding, made]
    obtain ⟨rows, ok⟩ := @RowKind.read_ok α kind (.filled i [r]) ids few filters
    have exact' := right _ (InMemoryStore.filled_tree proper ends [r]) rows ok b
    rw [faithful.count_read ok, home, stored, admitted, start, stop] at exact'
    simp [asked, unwanted, passes] at exact'
  · intro consistent s tree rows ok b
    rw [faithful.count_read ok, admitted]
    rcases consistent with same | many | nothing
    · have both : kind.home b ∈ ids ↔ kind.home b ∈ wanted := ⟨fun asked => same asked, fun meant => inside meant⟩
      simp [both]
    · rw [RowKind.read_many many] at ok
      cases ok
    · have absent : spanFiltersMatch filters (kind.start b) (kind.stop b) = true →
          (kind.stored s (kind.home b)).count b = 0 := by
        intro passes
        apply List.count_eq_zero.mpr
        intro there
        obtain ⟨-, rs, i, present, here, start, stop⟩ := faithful.mem_stored there
        have never := nothing i.span ((tree.timelines _ rs present).spans i here) (tree.ends _ rs present i here)
        rw [← start, ← stop, passes] at never
        cases never
      by_cases passes : spanFiltersMatch filters (kind.start b) (kind.stop b) = true
      · rw [absent passes, ite_self, ite_self]
      · simp [passes]

theorem common_subset (lists : List (List Ulid)) : common lists ⊆ lists.flatten := by
  intro r inside
  obtain ⟨some', all⟩ := mem_common.mp inside
  obtain ⟨ids, here⟩ := List.exists_mem_of_ne_nil _ some'
  exact List.mem_flatten.mpr ⟨ids, here, all ids here⟩

end Rows

/-! ## Statements on rows -/

section Tables

variable {lib : Library} {clause : Expr} {command : Command}

theorem answered {α : Type} {read : Except EngineError α} {make : α → Answer} {right : Answer → Prop} :
    (∀ answer, read.map make = .ok answer → right answer) ↔ ∀ rows, read = .ok rows → right (make rows) := by
  cases read with
  | error e => simp [Except.map]
  | ok rows => simp [Except.map]

theorem selectFrom_rules (accepted : selectFrom lib (some clause) "rules" = .ok command) :
    ∃ chosen, extractResourceIdFilter lib (some clause) = .ok chosen ∧
      ∀ s now, command.execute s now = (ruleRows.read s [] [chosen]).map .rules := by
  obtain ⟨chosen, extracted, same⟩ := Outcome.bind_ok.mp accepted
  cases same
  refine ⟨chosen, extracted, fun s now => congrArg (Except.map Answer.rules) ?_⟩
  rw [RowKind.read, getRows_ok, InMemoryStore.getRules]
  cases s.getResource chosen with
  | none => rfl
  | some rs => simp [spanFiltersMatch, ruleRows]

theorem selectFrom_bookings (accepted : selectFrom lib (some clause) "bookings" = .ok command) :
    ∃ ids filters, extractResourceIdsFilter lib (some clause) = .ok (ids, filters) ∧
      ∀ s now, command.execute s now = (bookingRows.read s filters ids).map .bookings := by
  obtain ⟨⟨ids, filters⟩, extracted, same⟩ := Outcome.bind_ok.mp accepted
  refine ⟨ids, filters, extracted, fun s now => ?_⟩
  simp only at same
  split at same
  · cases same
    rfl
  · next many =>
      cases same
      unfold RowKind.read
      split
      · next id => exact absurd rfl (many id)
      · rfl

theorem selectFrom_holds (accepted : selectFrom lib (some clause) "holds" = .ok command) :
    ∃ ids filters, extractResourceIdsFilter lib (some clause) = .ok (ids, filters) ∧
      ∀ s now, command.execute s now = (holdRows.read s filters ids).map .holds := by
  obtain ⟨⟨ids, filters⟩, extracted, same⟩ := Outcome.bind_ok.mp accepted
  refine ⟨ids, filters, extracted, fun s now => ?_⟩
  simp only at same
  split at same
  · cases same
    rfl
  · next many =>
      cases same
      unfold RowKind.read
      split
      · next id => exact absurd rfl (many id)
      · rfl

/-- Of several conjuncts on rules, the one that is taken is alone right when all of them name it. -/
theorem rules_consistent {chosen : Ulid} {ids : List Ulid} (names : resources lib clause = ids.map ([·]))
    (inside : chosen ∈ ids) : [chosen] ⊆ common (resources lib clause) ↔ NamesAlike lib clause := by
  have flat : (resources lib clause).flatten = ids := by rw [names, ← List.flatMap_def, List.flatMap_singleton']
  constructor
  · intro meant r there
    rw [flat] at there
    have all := (mem_common.mp (meant (List.mem_singleton_self chosen))).2
    rw [names] at all
    have same : chosen = r := List.mem_singleton.mp (all [r] (List.mem_map_of_mem there))
    exact same ▸ meant (List.mem_singleton_self chosen)
  · intro alike r there
    rw [List.mem_singleton.mp there]
    exact alike chosen (flat ▸ inside)

theorem rules_right (accepted : selectFrom lib (some clause) "rules" = .ok command) :
    (∀ s : InMemoryStore, s.WellFormedTree → ∀ now answer, command.execute s now = .ok answer →
      Right lib s now clause .rules answer) ↔ Consistent lib clause .rules := by
  obtain ⟨chosen, extracted, executes⟩ := selectFrom_rules accepted
  obtain ⟨⟨ids, names, inside⟩, admitted⟩ := extractResourceIdFilter_ok extracted
  have single : common (resources lib clause) ⊆ [chosen] := by
    intro r meant
    have all := (mem_common.mp meant).2
    rw [names] at all
    have same : r = chosen := List.mem_singleton.mp (all [chosen] (List.mem_map_of_mem inside))
    exact List.mem_singleton.mpr same
  have admitted' : ∀ r start stop, admits lib r start stop clause =
      (decide (r ∈ common (resources lib clause)) && spanFiltersMatch [] start stop) := by
    intro r start stop
    rw [admitted, spanFiltersMatch, List.all_nil, Bool.and_true]
  have exactly := ruleRows_faithful.read_iff single admitted'
  have right : Consistent lib clause .rules ↔ [chosen] ⊆ common (resources lib clause) ∨
      maxInClauseIds < [chosen].length ∨ ∀ span : Span, span.Representable → span.end ≤ maxValidTimestampMs →
        spanFiltersMatch [] span.start span.end = false := by
    rw [rules_consistent names inside]
    constructor
    · exact .inl
    · rintro (alike | many | nothing)
      · exact alike
      · simp [maxInClauseIds] at many
      · have passes := nothing ⟨0, 1⟩ ⟨by decide, by decide, by decide⟩ (by decide)
        cases passes
  rw [right, ← exactly]
  simp only [executes, answered]
  constructor
  · exact fun each s tree rows ok => each s tree 0 rows ok
  · exact fun each s tree _ rows ok => each s tree rows ok

theorem extracted_consistent {ids : List Ulid} {filters : List SpanFilter}
    (extracted : extractResourceIdsFilter lib (some clause) = .ok (ids, filters)) {α : Type} [DecidableEq α]
    {kind : RowKind α} (faithful : kind.Faithful) :
    (∀ s : InMemoryStore, s.WellFormedTree → ∀ rows, kind.read s filters ids = .ok rows → kind.Exactly lib s clause rows) ↔
      NamesAlike lib clause ∨ FindsNothing lib clause := by
  obtain ⟨rfl, rfl, admitted⟩ := extractResourceIdsFilter_ok extracted
  exact faithful.read_iff (common_subset _) admitted

theorem bookings_right (accepted : selectFrom lib (some clause) "bookings" = .ok command) :
    (∀ s : InMemoryStore, s.WellFormedTree → ∀ now answer, command.execute s now = .ok answer →
      Right lib s now clause .bookings answer) ↔ Consistent lib clause .bookings := by
  obtain ⟨ids, filters, extracted, executes⟩ := selectFrom_bookings accepted
  apply Iff.trans _ (extracted_consistent extracted bookingRows_faithful)
  simp only [executes, answered]
  constructor
  · exact fun each s tree rows ok => each s tree 0 rows ok
  · exact fun each s tree _ rows ok => each s tree rows ok

theorem holds_right (accepted : selectFrom lib (some clause) "holds" = .ok command) :
    (∀ s : InMemoryStore, s.WellFormedTree → ∀ now answer, command.execute s now = .ok answer →
      Right lib s now clause .holds answer) ↔ Consistent lib clause .holds := by
  obtain ⟨ids, filters, extracted, executes⟩ := selectFrom_holds accepted
  apply Iff.trans _ (extracted_consistent extracted holdRows_faithful)
  simp only [executes, answered]
  constructor
  · exact fun each s tree rows ok => each s tree 0 rows ok
  · exact fun each s tree _ rows ok => each s tree rows ok

end Tables

/-! ## Statements on availability -/

section Availability

variable {lib : Library} {clause : Expr} {s : InMemoryStore} {now start stop : Ms}

/-- What all lists name is named by each, so it is among what is read. -/
theorem common_addressed : (common (resources lib clause)).Subperm (addressed lib clause) := by
  have within : ∀ ids ∈ resources lib clause, (common (resources lib clause)).Subperm ids :=
    fun ids inside => List.subperm_ext_iff.mpr fun r _ => count_common_le inside r
  unfold addressed
  split
  · cases named' : resources lib clause with
    | nil => exact List.nil_subperm
    | cons ids rest =>
        rw [named'] at within
        exact (within ids List.mem_cons_self).trans (List.sublist_append_left ids rest.flatten).subperm
  · next some' =>
      obtain ⟨ids, inside⟩ := List.exists_mem_of_ne_nil _ some'
      obtain ⟨leaf, here, names⟩ := List.mem_filterMap.mp inside
      have named' : named lib leaf = some ids := by
        unfold inList at names
        split at names
        · exact names
        · cases names
      exact (within ids (List.mem_filterMap.mpr ⟨leaf, here, named'⟩)).trans (List.sublist_flatten_of_mem inside).subperm

/-- The reads of the resources one by one. -/
def eachFree (s : InMemoryStore) (now start stop : Ms) (shortest : Option Ms) (rid : Ulid) :
    Except EngineError (List (Ulid × Span)) := do
  let free ← s.computeAvailability now rid start stop shortest
  return free.map (rid, ·)

theorem eachFree_ok {shortest : Option Ms} {r : Ulid} {own : List (Ulid × Span)} :
    eachFree s now start stop shortest r = .ok own ↔
      ∃ free, s.computeAvailability now r start stop shortest = .ok free ∧ own = free.map (r, ·) := by
  unfold eachFree
  rw [Outcome.bind_ok]
  constructor
  · rintro ⟨free, read, same⟩
    cases same
    exact ⟨free, read, rfl⟩
  · rintro ⟨free, read, rfl⟩
    exact ⟨free, read, rfl⟩

/-- A read of several resources answers each of them with its own free time. -/
theorem availabilityMulti_count {ids : List Ulid} {shortest : Option Ms} {rows : List (Ulid × Span)}
    (ok : s.getAvailabilityMulti now ids start stop shortest = .ok rows) (b : Ulid × Span) :
    rows.count b = if b.1 ∈ ids then ((eachFree s now start stop shortest b.1).toOption.getD []).count b else 0 := by
  have belongs : ∀ r own, eachFree s now start stop shortest r = .ok own → ∀ b ∈ own, b.1 = r := by
    intro r own read b inside
    obtain ⟨free, _, rfl⟩ := eachFree_ok.mp read
    obtain ⟨span, _, rfl⟩ := List.mem_map.mp inside
    rfl
  exact InMemoryStore.readMulti_count belongs ok b

theorem eachFree_mem {shortest : Option Ms} {b : Ulid × Span}
    (inside : 0 < ((eachFree s now start stop shortest b.1).toOption.getD []).count b) :
    ∃ free, s.computeAvailability now b.1 start stop shortest = .ok free ∧ b.2 ∈ free := by
  have member := List.count_pos_iff.mp inside
  cases read : eachFree s now start stop shortest b.1 with
  | error e => rw [read] at member; cases member
  | ok own =>
      rw [read] at member
      obtain ⟨free, found, rfl⟩ := eachFree_ok.mp read
      obtain ⟨span, there, same⟩ := List.mem_map.mp member
      exact ⟨free, found, same ▸ there⟩

theorem getAvailabilityMulti_single (r : Ulid) (shortest : Option Ms) :
    s.getAvailabilityMulti now [r] start stop shortest =
      (s.computeAvailability now r start stop shortest).map fun free => free.map (r, ·) := by
  unfold InMemoryStore.getAvailabilityMulti InMemoryStore.readMulti InMemoryStore.readEach
  simp only [InMemoryStore.readEach]
  cases s.computeAvailability now r start stop shortest with
  | error e => rfl
  | ok free => simp [maxInClauseIds, Bind.bind, Except.bind, Except.map, pure, Except.pure]

/-- A read of resources one by one is right when all that is free is meant. -/
theorem multi_right (plain : numbers lib clause = []) (agrees : Agrees lib clause) (starts : windowStart lib clause = some start)
    (stops : windowEnd lib clause = some stop) (tree : s.WellFormedTree) {rows : List (Ulid × Span)}
    (ok : s.getAvailabilityMulti now (addressed lib clause) start stop (durations lib clause).getLast? = .ok rows) :
    ∃ wanted, intended lib s now clause start stop = .ok wanted ∧ rows.Perm wanted := by
  have few : (addressed lib clause).length ≤ maxInClauseIds := by
    by_contra many
    unfold InMemoryStore.getAvailabilityMulti InMemoryStore.readMulti at ok
    rw [if_pos (Nat.not_le.mp many)] at ok
    cases ok
  have meant : ∀ b : Ulid × Span, b.1 ∈ addressed lib clause →
      0 < ((eachFree s now start stop (durations lib clause).getLast? b.1).toOption.getD []).count b →
      agreed (durations lib clause) ≠ none ∧ b.1 ∈ common (resources lib clause) := by
    intro b asked inside
    obtain ⟨free, read, found⟩ := eachFree_mem inside
    have finds : Finds lib clause start stop := by
      refine ⟨?_, fun some' => absurd plain some'⟩
      by_contra unreadable
      rw [InMemoryStore.unreadable_nothing tree unreadable read] at found
      cases found
    have enough := agrees start stop starts stops finds few (fun r => decide (r = b.1))
    rw [plain] at enough
    obtain ⟨alike, -, reached⟩ := enough (List.countP_pos_iff.mpr ⟨b.1, asked, by simp⟩)
    obtain ⟨r, here, same⟩ := List.countP_pos_iff.mp (Nat.lt_of_lt_of_le Nat.zero_lt_one reached)
    exact ⟨alike, of_decide_eq_true same ▸ here⟩
  unfold intended
  cases alike : agreed (durations lib clause) with
  | none =>
      refine ⟨[], rfl, ?_⟩
      rw [List.perm_nil, List.eq_nil_iff_forall_not_mem]
      intro b inside
      have counted := List.count_pos_iff.mpr inside
      rw [availabilityMulti_count ok] at counted
      split at counted
      · next asked => exact (meant b asked counted).1 alike
      · cases counted
  | some shortest =>
      obtain ⟨wanted, ok'⟩ := InMemoryStore.readMulti_subset ok common_addressed.length_le common_addressed.subset
      rw [agreed_some alike] at ok ok'
      refine ⟨wanted, ok', List.perm_iff_count.mpr fun b => ?_⟩
      rw [availabilityMulti_count ok, availabilityMulti_count ok']
      rw [agreed_some alike] at meant
      by_cases inside : 0 < ((eachFree s now start stop shortest b.1).toOption.getD []).count b
      · have both : b.1 ∈ addressed lib clause ↔ b.1 ∈ common (resources lib clause) :=
          ⟨fun asked => (meant b asked inside).2, fun meant => common_addressed.subset meant⟩
        rw [if_congr both rfl rfl]
      · rw [Nat.eq_zero_of_not_pos inside, ite_self, ite_self]

/-- Where the conjuncts disagree, some resources are free that are not meant. -/
theorem multi_agrees (plain : numbers lib clause = []) (starts : windowStart lib clause = some start)
    (stops : windowEnd lib clause = some stop)
    (right : ∀ s : InMemoryStore, s.WellFormedTree → ∀ now rows,
      s.getAvailabilityMulti now (addressed lib clause) start stop (durations lib clause).getLast? = .ok rows →
        ∃ wanted, intended lib s now clause start stop = .ok wanted ∧ rows.Perm wanted) : Agrees lib clause := by
  intro start' stop' starts' stops' finds few free reached
  cases starts.symm.trans starts'
  cases stops.symm.trans stops'
  rw [plain] at reached ⊢
  obtain ⟨r, asked, chosen⟩ := List.countP_pos_iff.mp (Nat.lt_of_lt_of_le Nat.zero_lt_one reached)
  have proper := InMemoryStore.window_representable finds.1
  let free' : InMemoryStore := .filled (InMemoryStore.opening (InMemoryStore.window start stop)) [r]
  have each : ∀ r', eachFree free' 0 start stop (durations lib clause).getLast? r' =
      .ok ((if r' ∈ [r] then [InMemoryStore.window start stop] else []).map (r', ·)) :=
    fun r' => eachFree_ok.mpr ⟨_, InMemoryStore.filled_read finds.1 [r] r', rfl⟩
  obtain ⟨rows, ok⟩ : ∃ rows, free'.getAvailabilityMulti 0 (addressed lib clause) start stop
      (durations lib clause).getLast? = .ok rows := by
    unfold InMemoryStore.getAvailabilityMulti InMemoryStore.readMulti
    rw [if_neg (Nat.not_lt.mpr few)]
    exact InMemoryStore.readEach_succeeds fun r' _ => ⟨_, each r'⟩
  have found : rows.count (r, InMemoryStore.window start stop) = 1 := by
    rw [availabilityMulti_count ok, if_pos asked, each, if_pos (List.mem_singleton_self r)]
    simp [Except.toOption]
  obtain ⟨wanted, meant, same⟩ := right free' (InMemoryStore.filled_tree proper.1 proper.2 [r]) 0 rows ok
  rw [same.count_eq] at found
  unfold intended at meant
  cases alike : agreed (durations lib clause) with
  | none =>
      rw [alike] at meant
      cases meant
      cases found
  | some shortest =>
      rw [alike] at meant
      rw [availabilityMulti_count meant] at found
      split at found
      · next named' => exact ⟨Option.some_ne_none _, Option.some_ne_none _, List.countP_pos_iff.mpr ⟨r, named', chosen⟩⟩
      · cases found

/-- A merged read is right when the sets of free resources that reach the number are those meant. -/
theorem merged_right {n : Nat} (asked : (numbers lib clause).getLast? = some n) (positive : 0 < n)
    (enough : n ≤ (addressed lib clause).length) (agrees : Agrees lib clause)
    (starts : windowStart lib clause = some start) (stops : windowEnd lib clause = some stop) (tree : s.WellFormedTree)
    {rows : List Span}
    (ok : s.computeMultiAvailability now (addressed lib clause) start stop n (durations lib clause).getLast? = .ok rows) :
    intendedMerged lib s now clause start stop = .ok rows := by
  have merges := InMemoryStore.computeMulti_merged.mp ok
  have some' : numbers lib clause ≠ [] := by
    intro none'
    rw [none'] at asked
    cases asked
  have subperm : (common (resources lib clause)).Subperm (addressed lib clause) := common_addressed
  by_cases finds : Finds lib clause start stop
  · have reached := agrees start stop starts stops finds (merges.few finds.1)
    rw [asked] at reached
    obtain ⟨alike, one, -⟩ := reached (fun _ => true) (by simpa using enough)
    have meant := InMemoryStore.computeMulti_same tree positive subperm.subset subperm.length_le
      (fun free => ⟨fun reach => (reached free reach).2.2, fun reach => reach.trans (subperm.countP_le free)⟩) merges
    obtain ⟨shortest, same⟩ := Option.ne_none_iff_exists'.mp alike
    obtain ⟨number, same'⟩ := Option.ne_none_iff_exists'.mp one
    rw [agreed_some same'] at asked
    rw [agreed_some same] at meant
    rw [intendedMerged, same, same', asked]
    exact InMemoryStore.computeMulti_merged.mpr meant
  · have nothing : ∀ {ids rows}, InMemoryStore.MergedRead s now ids start stop n (durations lib clause).getLast? rows →
        rows = [] := by
      intro ids rows merges
      by_cases readable : InMemoryStore.Readable start stop (durations lib clause).getLast?
      · exact merges.wide fun narrow => finds ⟨readable, fun _ => narrow⟩
      · exact merges.unreadable tree readable
    rw [nothing merges]
    unfold intendedMerged
    cases alike : agreed (durations lib clause) with
    | none => rfl
    | some shortest =>
        cases one : agreed (numbers lib clause) with
        | none => rfl
        | some number =>
            obtain ⟨wanted, meant⟩ := merges.subset subperm.subset subperm.length_le
            rw [nothing meant, agreed_some alike] at meant
            rw [agreed_some one] at asked
            rw [asked]
            exact InMemoryStore.computeMulti_merged.mpr meant

/-- Where the conjuncts disagree, some resources are enough that are not meant. -/
theorem merged_agrees {n : Nat} (asked : (numbers lib clause).getLast? = some n) (positive : 0 < n)
    (starts : windowStart lib clause = some start) (stops : windowEnd lib clause = some stop)
    (right : ∀ s : InMemoryStore, s.WellFormedTree → ∀ now rows,
      s.computeMultiAvailability now (addressed lib clause) start stop n (durations lib clause).getLast? = .ok rows →
        intendedMerged lib s now clause start stop = .ok rows) : Agrees lib clause := by
  intro start' stop' starts' stops' finds few free reached
  cases starts.symm.trans starts'
  cases stops.symm.trans stops'
  rw [asked, Option.getD_some] at reached ⊢
  have some' : numbers lib clause ≠ [] := by
    intro none'
    rw [none'] at asked
    cases asked
  let chosen := (addressed lib clause).filter free
  let free' : InMemoryStore := .filled (InMemoryStore.opening (InMemoryStore.window start stop)) chosen
  have proper := InMemoryStore.window_representable finds.1
  have each : ∀ r ∈ addressed lib clause, (decide (r ∈ chosen) = true ↔ free r = true) := by
    intro r here
    simp [chosen, here]
  have ok : free'.computeMultiAvailability 0 (addressed lib clause) start stop n (durations lib clause).getLast? =
      .ok [InMemoryStore.window start stop] := by
    rw [InMemoryStore.filled_merged finds.1 (finds.2 some') few positive, List.countP_congr each, if_pos reached]
  have meant := right free' (InMemoryStore.filled_tree proper.1 proper.2 chosen) 0 _ ok
  unfold intendedMerged at meant
  cases alike : agreed (durations lib clause) with
  | none => rw [alike] at meant; cases meant
  | some shortest =>
      cases one : agreed (numbers lib clause) with
      | none => rw [alike, one] at meant; cases meant
      | some number =>
          refine ⟨Option.some_ne_none _, Option.some_ne_none _, ?_⟩
          have readable := finds.1
          rw [agreed_some one] at asked
          rw [agreed_some alike] at readable
          rw [alike, one, asked] at meant
          have fewer := common_addressed.length_le.trans few
          have merged := meant.symm.trans (InMemoryStore.filled_merged readable (finds.2 some') fewer positive)
          split at merged
          · next enough =>
              apply enough.trans
              apply List.countP_mono_left
              intro r _ inside
              exact (List.mem_filter.mp (of_decide_eq_true inside)).2
          · cases merged

theorem availability_right {command : Command} (accepted : selectFrom lib (some clause) "availability" = .ok command) :
    (∀ s : InMemoryStore, s.WellFormedTree → ∀ now answer, command.execute s now = .ok answer →
      Right lib s now clause .availability answer) ↔ Consistent lib clause .availability := by
  obtain ⟨start, stop, starts, stops, asks⟩ := selectAvailability_asks accepted
  have window' : ∀ {wanted : Ms → Ms → Prop}, (∃ start stop, windowStart lib clause = some start ∧
      windowEnd lib clause = some stop ∧ wanted start stop) ↔ wanted start stop := by
    intro wanted
    simp [starts, stops]
  cases asks with
  | @single id noLists names plain =>
      have reads : addressed lib clause = [id] := by rw [addressed, if_pos noLists, names]; rfl
      have executes : ∀ s now, (Command.selectAvailability id start stop (durations lib clause).getLast?).execute s now =
          (s.getAvailabilityMulti now (addressed lib clause) start stop (durations lib clause).getLast?).map
            .availability := by
        intro s now
        rw [reads, getAvailabilityMulti_single]
        simp only [Command.execute]
        cases s.computeAvailability now id start stop (durations lib clause).getLast? <;> rfl
      simp only [executes, answered]
      constructor
      · exact fun right => multi_agrees plain starts stops fun s tree now rows ok => window'.mp (right s tree now rows ok)
      · exact fun agrees s tree now rows ok => window'.mpr (multi_right plain agrees starts stops tree ok)
  | multi some' plain =>
      have reads : addressed lib clause = listed lib clause := if_neg some'
      rw [← reads]
      simp only [Command.execute, answered]
      constructor
      · exact fun right => multi_agrees plain starts stops fun s tree now rows ok => window'.mp (right s tree now rows ok)
      · exact fun agrees s tree now rows ok => window'.mpr (multi_right plain agrees starts stops tree ok)
  | @merged n some' asked positive few =>
      have reads : addressed lib clause = listed lib clause := if_neg some'
      rw [← reads] at few ⊢
      simp only [Command.execute, answered]
      constructor
      · exact fun right => merged_agrees asked positive starts stops fun s tree now rows ok =>
          window'.mp (right s tree now rows ok)
      · exact fun agrees s tree now rows ok =>
          window'.mpr (merged_right asked positive few agrees starts stops tree ok)

end Availability

/-! ## Whole statements -/

section Statements

variable {lib : Library} {query : Query} {table : ReadTable} {clause : Expr} {command : Command}

theorem parseSelect_from (reads : query.Reads lib table clause) (accepted : parseSelect lib query = .ok command) :
    selectFrom lib (some clause) table.name = .ok command := by
  obtain ⟨select, first, rest, body, tables, name, selection⟩ := reads
  unfold parseSelect at accepted
  simp only [body, tables] at accepted
  obtain ⟨_, _, accepted⟩ := Outcome.bind_ok.mp accepted
  obtain ⟨table', name', accepted⟩ := Outcome.bind_ok.mp accepted
  cases name.symm.trans name'
  rw [selection] at accepted
  exact accepted

/-- An accepted statement answers its clause in every state exactly when repeated conjuncts say the same. -/
theorem select_answers_clause (reads : query.Reads lib table clause) (accepted : parseSelect lib query = .ok command) :
    (∀ s : InMemoryStore, s.WellFormedTree → ∀ now answer, command.execute s now = .ok answer →
      Right lib s now clause table answer) ↔ Consistent lib clause table := by
  have chosen := parseSelect_from reads accepted
  cases table with
  | rules => exact rules_right chosen
  | bookings => exact bookings_right chosen
  | holds => exact holds_right chosen
  | availability => exact availability_right chosen

/-- The ids and the names below, as they are parsed and printed. -/
def plainLibrary : Library where
  ulidFromString s := if s = "00000000000000000000000001" then .ok 1
    else if s = "00000000000000000000000002" then .ok 2 else .error "invalid length"
  toLowercase s := s
  displayExpr _ := "expression"
  displayOperator _ := "operator"
  debugExpr _ := "expression"
  debugValue _ := "value"

/-- Two conjuncts, one for each of two resources. -/
def bothResources (first second : String) : Expr :=
  .binaryOp (.binaryOp (.identifier "resource_id") .eq (.value (.singleQuotedString first))) .and
    (.binaryOp (.identifier "resource_id") .eq (.value (.singleQuotedString second)))

def readsBookings (clause : Expr) : Query :=
  ⟨some ⟨true, [⟨.table [.identifier "bookings"], false⟩], some clause, false, false, false⟩,
    false, false, false, false, false⟩

theorem repeated_resource_right :
    parseSelect plainLibrary
        (readsBookings (bothResources "00000000000000000000000001" "00000000000000000000000001")) =
      .ok (.selectBookingsMulti [1, 1] []) ∧
    ∀ s : InMemoryStore, s.WellFormedTree → ∀ now answer,
      (Command.selectBookingsMulti [1, 1] []).execute s now = .ok answer →
        Right plainLibrary s now (bothResources "00000000000000000000000001" "00000000000000000000000001") .bookings
          answer := by
  refine ⟨rfl, ?_⟩
  apply (@select_answers_clause plainLibrary (readsBookings _) .bookings _ _ ⟨_, _, _, rfl, rfl, rfl, rfl⟩ rfl).mpr
  have names : resources plainLibrary
      (bothResources "00000000000000000000000001" "00000000000000000000000001") = [[1], [1]] := rfl
  apply Or.inl
  intro r inside
  rw [names] at inside ⊢
  simpa [common] using inside

theorem contradiction_unites :
    (readsBookings (bothResources "00000000000000000000000001" "00000000000000000000000002")).Reads plainLibrary .bookings
        (bothResources "00000000000000000000000001" "00000000000000000000000002") ∧
      ∃ command, parseSelect plainLibrary
          (readsBookings (bothResources "00000000000000000000000001" "00000000000000000000000002")) = .ok command ∧
        ∃ s : InMemoryStore, s.WellFormedTree ∧ ∃ answer, command.execute s 0 = .ok answer ∧
          ¬ Right plainLibrary s 0 (bothResources "00000000000000000000000001" "00000000000000000000000002") .bookings
            answer := by
  refine ⟨⟨_, _, _, rfl, rfl, rfl, rfl⟩, .selectBookingsMulti [1, 2] [], rfl, ?_⟩
  refine ⟨.filled ⟨0, ⟨0, 10⟩, .booking none⟩ [1], InMemoryStore.filled_tree ⟨by decide, by decide, by decide⟩ (by decide) _,
    .bookings [⟨0, 1, 0, 10, none⟩], by decide +kernel, ?_⟩
  intro right
  have counted := right ⟨0, 1, 0, 10, none⟩
  revert counted
  decide +kernel

end Statements

end Sql

end Deltat
