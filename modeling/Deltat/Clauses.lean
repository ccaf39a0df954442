import Mathlib.Data.List.Count
import Mathlib.Data.List.Lattice
import Deltat.Lib.Outcome
import Deltat.Sql

/-! # What a WHERE clause says

Read conjunct by conjunct, a clause names resources, compares spans and gives the parameters of
an availability read. What each extractor collects is told in these terms.
-/

namespace Deltat

open Lib Limits

namespace Sql

section Meaning

variable (lib : Library)

/-- The resources that a conjunct admits, when it is about resources. -/
def named : Expr → Option (List Ulid)
  | .binaryOp left .eq right =>
      if exprColumnName lib left = some "resource_id" then (parseUlidExpr lib right).toOption.map ([·]) else none
  | .inList column list negated =>
      if !negated && exprColumnName lib column = some "resource_id" then (list.mapM (parseUlidExpr lib)).toOption
      else none
  | _ => none

/-- The comparison that a conjunct makes with one bound of a span. -/
def compared : Expr → Option SpanFilter
  | .binaryOp left op right => spanFilterFrom lib left op right
  | _ => none

/-- What a conjunct compares a column with. -/
def given (column : String) (op : BinaryOperator) : Expr → Option Ms
  | .binaryOp left op' right =>
      if op' = op ∧ exprColumnName lib left = some column then (parseI64Expr lib right).toOption else none
  | _ => none

/-- The resources in an IN list. -/
def inList (leaf : Expr) : Option (List Ulid) := if isResourceIdInList lib leaf then named lib leaf else none

/-- Whether a single conjunct lets a row pass. -/
def admitsLeaf (resourceId : Ulid) (start stop : Ms) (leaf : Expr) : Bool :=
  match named lib leaf with
  | some ids => ids.contains resourceId
  | none => (compared lib leaf).elim false (·.matches start stop)

/-- Whether a clause lets a row of a resource pass. -/
def admits (resourceId : Ulid) (start stop : Ms) : Expr → Bool
  | .binaryOp left .and right => admits resourceId start stop left && admits resourceId start stop right
  | .nested inner => admits resourceId start stop inner
  | leaf => admitsLeaf lib resourceId start stop leaf

/-- What all lists name, each id as often as the list that names it the fewest times. -/
def common : List (List Ulid) → List Ulid
  | [] => []
  | ids :: rest => rest.foldl List.bagInter ids

/-- The one value of several equal ones, or none of none. -/
def agreed {α : Type} [DecidableEq α] : List α → Option (Option α)
  | [] => some none
  | a :: rest => if rest.all (· = a) then some (some a) else none

variable (clause : Expr)

/-- What each conjunct about resources names. -/
def resources : List (List Ulid) := (flattenConjuncts clause).filterMap (named lib)

/-- What each IN list names. -/
def lists : List (List Ulid) := (flattenConjuncts clause).filterMap (inList lib)

/-- What the IN lists name, one after the other. -/
def listed : List Ulid := (lists lib clause).flatten

/-- The comparisons with bounds of spans. -/
def comparisons : List SpanFilter := (flattenConjuncts clause).filterMap (compared lib)

def windowStart : Option Ms := ((flattenConjuncts clause).filterMap (given lib "start" .gtEq)).max?

def windowEnd : Option Ms := ((flattenConjuncts clause).filterMap (given lib "end" .ltEq)).min?

def durations : List Ms := (flattenConjuncts clause).filterMap (given lib "min_duration" .eq)

def numbers : List Nat := ((flattenConjuncts clause).filterMap (given lib "min_available" .eq)).map Int.toNat

end Meaning

/-! ## Lists in common -/

theorem mem_common {lists : List (List Ulid)} {r : Ulid} :
    r ∈ common lists ↔ lists ≠ [] ∧ ∀ ids ∈ lists, r ∈ ids := by
  cases lists with
  | nil => simp [common]
  | cons ids rest =>
      simp only [common, ne_eq, reduceCtorEq, not_false_eq_true, true_and, List.forall_mem_cons]
      induction rest generalizing ids with
      | nil => simp
      | cons other rest ih => simp [ih, List.mem_bagInter, and_assoc]

theorem count_common_le {lists : List (List Ulid)} {ids : List Ulid} (inside : ids ∈ lists) (r : Ulid) :
    (common lists).count r ≤ ids.count r := by
  cases lists with
  | nil => cases inside
  | cons first rest =>
      simp only [common]
      induction rest generalizing first ids with
      | nil => rw [List.mem_singleton.mp inside]; rfl
      | cons other rest ih =>
          have below : (rest.foldl List.bagInter (first.bagInter other)).count r ≤ (first.bagInter other).count r :=
            ih _ List.mem_cons_self
          rw [List.count_bagInter] at below
          rcases List.mem_cons.mp inside with rfl | later
          · exact below.trans (min_le_left _ _)
          · rcases List.mem_cons.mp later with rfl | later
            · exact below.trans (min_le_right _ _)
            · exact ih _ (List.mem_cons_of_mem _ later)

theorem agreed_some {α : Type} [DecidableEq α] {xs : List α} {x : Option α} (same : agreed xs = some x) :
    xs.getLast? = x := by
  cases xs with
  | nil => simpa [agreed] using same
  | cons a rest =>
      simp only [agreed] at same
      split at same
      · next equal =>
          cases same
          have last := List.getLast_mem (List.cons_ne_nil a rest)
          rw [List.getLast?_eq_some_getLast (List.cons_ne_nil a rest)]
          rcases List.mem_cons.mp last with here | later
          · rw [here]
          · rw [of_decide_eq_true (List.all_eq_true.mp equal _ later)]
      · cases same

section Clauses

variable {lib : Library} {clause : Expr}

theorem admits_iff {resourceId : Ulid} {start stop : Ms} : admits lib resourceId start stop clause =
    (flattenConjuncts clause).all (admitsLeaf lib resourceId start stop) := by
  fun_induction flattenConjuncts clause with
  | case1 inner ih => exact ih
  | case2 left right ihLeft ihRight => rw [admits, ihLeft, ihRight, List.all_append]
  | case3 leaf notNested notAnd =>
      rw [List.all_cons, List.all_nil, Bool.and_true]
      unfold admits
      split
      · next left right => exact absurd rfl (notAnd left right)
      · next inner => exact absurd rfl (notNested inner)
      · rfl

/-! ## Bookings and holds -/

theorem collectResourceIds_eq {ids : List Ulid} {filters : List SpanFilter} :
    collectResourceIds lib clause ids filters =
      (flattenConjuncts clause).foldlM (fun acc leaf => collectConjunct lib acc.1 acc.2 leaf) (ids, filters) := by
  fun_induction flattenConjuncts clause generalizing ids filters with
  | case1 inner ih => exact ih
  | case2 left right ihLeft ihRight =>
      rw [collectResourceIds, List.foldlM_append, ihLeft]
      congr 1
      funext acc
      exact ihRight
  | case3 leaf notNested notAnd =>
      rw [List.foldlM_cons]
      simp only [List.foldlM_nil, bind_pure]
      unfold collectResourceIds
      split
      · next left right => exact absurd rfl (notAnd left right)
      · next inner => exact absurd rfl (notNested inner)
      · rfl

theorem collectComparison_ok {ids : List Ulid} {filters : List SpanFilter} {left right : Expr} {op : BinaryOperator}
    {acc : List Ulid × List SpanFilter}
    (collected : collectConjunct.collectComparison lib ids filters left op right = .ok acc) :
    ∃ f, spanFilterFrom lib left op right = some f ∧ acc = (ids, filters ++ [f]) := by
  unfold collectConjunct.collectComparison at collected
  split at collected
  · next f found =>
      cases collected
      exact ⟨f, found, rfl⟩
  · cases collected

/-- A conjunct is about resources or about a bound of the span. -/
theorem collectConjunct_ok {ids : List Ulid} {filters : List SpanFilter} {leaf : Expr}
    {acc : List Ulid × List SpanFilter} (collected : collectConjunct lib ids filters leaf = .ok acc) :
    (∃ listed, named lib leaf = some listed ∧ compared lib leaf = none ∧ acc = (ids ++ listed, filters)) ∨
      ∃ f, named lib leaf = none ∧ compared lib leaf = some f ∧ acc = (ids, filters ++ [f]) := by
  unfold collectConjunct at collected
  split at collected
  · next left right =>
      split at collected
      · next column =>
          obtain ⟨id, parsed, same⟩ := Outcome.bind_ok.mp collected
          cases same
          refine .inl ⟨[id], ?_, ?_, rfl⟩
          · simp [named, column, parsed, Except.toOption]
          · simp [compared, spanFilterFrom, column]
      · next column =>
          obtain ⟨f, found, rfl⟩ := collectComparison_ok collected
          exact .inr ⟨f, if_neg column, found, rfl⟩
  · obtain ⟨f, found, rfl⟩ := collectComparison_ok collected
    exact .inr ⟨f, rfl, found, rfl⟩
  · obtain ⟨f, found, rfl⟩ := collectComparison_ok collected
    exact .inr ⟨f, rfl, found, rfl⟩
  · obtain ⟨f, found, rfl⟩ := collectComparison_ok collected
    exact .inr ⟨f, rfl, found, rfl⟩
  · obtain ⟨f, found, rfl⟩ := collectComparison_ok collected
    exact .inr ⟨f, rfl, found, rfl⟩
  · next column list negated =>
      split at collected
      · next listing =>
          obtain ⟨listed, parsed, same⟩ := Outcome.bind_ok.mp collected
          cases same
          unfold parseInList at parsed
          split at parsed
          · cases parsed
          · exact .inl ⟨listed, by rw [named, if_pos listing, parsed]; rfl, rfl, rfl⟩
      · cases collected
  · cases collected

theorem foldlM_collectConjunct_ok {leaves : List Expr} {start acc : List Ulid × List SpanFilter}
    (collected : leaves.foldlM (fun acc leaf => collectConjunct lib acc.1 acc.2 leaf) start = .ok acc) :
    acc = (start.1 ++ (leaves.filterMap (named lib)).flatten, start.2 ++ leaves.filterMap (compared lib)) ∧
      ∀ resourceId first last, leaves.all (admitsLeaf lib resourceId first last) =
        ((leaves.filterMap (named lib)).all (fun ids => decide (resourceId ∈ ids)) &&
          spanFiltersMatch (leaves.filterMap (compared lib)) first last) := by
  induction leaves generalizing start with
  | nil =>
      cases collected
      exact ⟨by simp, fun _ _ _ => rfl⟩
  | cons leaf rest ih =>
      rw [List.foldlM_cons] at collected
      obtain ⟨next, here, later⟩ := Outcome.bind_ok.mp collected
      obtain ⟨same, all⟩ := ih later
      rcases collectConjunct_ok here with ⟨listed, names, other, rfl⟩ | ⟨f, other, compares, rfl⟩
      · refine ⟨by simp [same, names, other], fun r first last => ?_⟩
        simp only [List.all_cons, all, admitsLeaf, names, other, List.filterMap_cons, Bool.and_assoc, List.contains_eq_mem]
      · refine ⟨by simp [same, other, compares], fun r first last => ?_⟩
        simp only [List.all_cons, all, admitsLeaf, other, compares, List.filterMap_cons, Option.elim, spanFiltersMatch]
        exact Bool.and_left_comm ..

/-- What an accepted clause on bookings or holds collects, and what it admits. -/
theorem extractResourceIdsFilter_ok {ids : List Ulid} {filters : List SpanFilter}
    (extracted : extractResourceIdsFilter lib (some clause) = .ok (ids, filters)) :
    ids = (resources lib clause).flatten ∧ filters = comparisons lib clause ∧ ∀ resourceId start stop,
      admits lib resourceId start stop clause = (decide (resourceId ∈ common (resources lib clause)) &&
        spanFiltersMatch (comparisons lib clause) start stop) := by
  unfold extractResourceIdsFilter at extracted
  obtain ⟨⟨ids', filters'⟩, collected, extracted⟩ := Outcome.bind_ok.mp extracted
  simp only [collectResourceIds_eq] at collected
  obtain ⟨same, all⟩ := foldlM_collectConjunct_ok collected
  cases same
  simp only [List.nil_append] at extracted
  split at extracted
  · cases extracted
  · next some' =>
      cases extracted
      refine ⟨rfl, rfl, fun r start stop => ?_⟩
      have some' : resources lib clause ≠ [] := by
        intro none'
        apply some'
        rw [← resources, none']
        rfl
      rw [admits_iff, all]
      congr 1
      rw [Bool.eq_iff_iff, List.all_eq_true, decide_eq_true_iff, mem_common]
      simp only [decide_eq_true_iff]
      exact (and_iff_right some').symm

/-! ## Rules -/

theorem collectSingleResourceId_eq {found : Option Ulid} : collectSingleResourceId lib clause found =
    (flattenConjuncts clause).foldlM (fun found leaf => collectSingleResourceId lib leaf found) found := by
  fun_induction flattenConjuncts clause generalizing found with
  | case1 inner ih => exact ih
  | case2 left right ihLeft ihRight =>
      rw [collectSingleResourceId, List.foldlM_append, ihLeft]
      congr 1
      funext acc
      exact ihRight
  | case3 leaf notNested notAnd => simp

theorem collectSingleLeaf_ok {leaf : Expr} (notNested : ∀ inner, leaf ≠ .nested inner)
    (notAnd : ∀ left right, leaf ≠ .binaryOp left .and right) {found id : Option Ulid}
    (collected : collectSingleResourceId lib leaf found = .ok id) : ∃ x, named lib leaf = some [x] ∧ id = some x := by
  unfold collectSingleResourceId at collected
  split at collected
  · next left right => exact absurd rfl (notAnd left right)
  · next inner => exact absurd rfl (notNested inner)
  · split at collected
    · next column =>
        obtain ⟨x, parsed, same⟩ := Outcome.bind_ok.mp collected
        cases same
        exact ⟨x, by simp [named, column, parsed, Except.toOption], rfl⟩
    · cases collected
  · cases collected

theorem flattenConjuncts_leaf {leaf : Expr} (inside : leaf ∈ flattenConjuncts clause) :
    (∀ inner, leaf ≠ .nested inner) ∧ ∀ left right, leaf ≠ .binaryOp left .and right := by
  fun_induction flattenConjuncts clause with
  | case1 inner ih => exact ih inside
  | case2 left right ihLeft ihRight => exact (List.mem_append.mp inside).elim ihLeft ihRight
  | case3 leaf' notNested notAnd =>
      cases List.mem_singleton.mp inside
      exact ⟨fun inner same => notNested inner same, fun left right same => notAnd left right same⟩

/-- What an accepted clause on rules collects, and what it admits. -/
theorem extractResourceIdFilter_ok {chosen : Ulid} (extracted : extractResourceIdFilter lib (some clause) = .ok chosen) :
    (∃ ids : List Ulid, resources lib clause = ids.map ([·]) ∧ chosen ∈ ids) ∧ ∀ resourceId start stop,
      admits lib resourceId start stop clause = decide (resourceId ∈ common (resources lib clause)) := by
  have leaves : ∀ leaves : List Expr, (∀ leaf ∈ leaves, (∀ inner, leaf ≠ .nested inner) ∧
      ∀ left right, leaf ≠ .binaryOp left .and right) → ∀ found last : Option Ulid,
      leaves.foldlM (fun found leaf => collectSingleResourceId lib leaf found) found = .ok last →
      ∃ ids : List Ulid, leaves.map (named lib) = ids.map (some [·]) ∧ (last = found ∧ ids = [] ∨ ∃ x ∈ ids, last = some x) := by
    intro leaves
    induction leaves with
    | nil =>
        intro _ found last collected
        cases collected
        exact ⟨[], rfl, .inl ⟨rfl, rfl⟩⟩
    | cons leaf rest ih =>
        intro single found last collected
        rw [List.foldlM_cons] at collected
        obtain ⟨next, here, later⟩ := Outcome.bind_ok.mp collected
        obtain ⟨notNested, notAnd⟩ := single leaf List.mem_cons_self
        obtain ⟨x, names, rfl⟩ := collectSingleLeaf_ok notNested notAnd here
        obtain ⟨ids, others, ended⟩ := ih (fun l inside => single l (List.mem_cons_of_mem _ inside)) _ _ later
        refine ⟨x :: ids, by simp [names, others], .inr ?_⟩
        rcases ended with ⟨rfl, rfl⟩ | ⟨y, inside, rfl⟩
        · exact ⟨x, List.mem_cons_self, rfl⟩
        · exact ⟨y, List.mem_cons_of_mem _ inside, rfl⟩
  unfold extractResourceIdFilter at extracted
  obtain ⟨found, collected, extracted⟩ := Outcome.bind_ok.mp extracted
  rw [collectSingleResourceId_eq] at collected
  obtain ⟨ids, names, ended⟩ := leaves _ (fun _ => flattenConjuncts_leaf) _ _ collected
  rcases ended with ⟨rfl, rfl⟩ | ⟨x, inside, rfl⟩
  · cases extracted
  · cases extracted
    have listed : resources lib clause = ids.map ([·]) := by
      have joined : ((flattenConjuncts clause).map (named lib)).filterMap id = resources lib clause := by
        rw [List.filterMap_map]
        rfl
      rw [← joined, names, List.filterMap_map]
      simp
    have some' : resources lib clause ≠ [] := by
      rw [listed]
      exact fun none' => List.ne_nil_of_mem inside (List.map_eq_nil_iff.mp none')
    refine ⟨⟨ids, listed, inside⟩, fun r start stop => ?_⟩
    rw [admits_iff, Bool.eq_iff_iff, List.all_eq_true, decide_eq_true_iff, mem_common, and_iff_right some']
    constructor
    · intro passes listed' named'
      obtain ⟨leaf, here, names'⟩ := List.mem_filterMap.mp named'
      have passed := passes leaf here
      rw [admitsLeaf, names'] at passed
      exact List.contains_iff_mem.mp passed
    · intro inAll leaf here
      have names' : named lib leaf ∈ ids.map (some [·]) := names ▸ List.mem_map_of_mem here
      obtain ⟨x, _, same⟩ := List.mem_map.mp names'
      rw [admitsLeaf, ← same]
      exact List.contains_iff_mem.mpr (inAll [x] (List.mem_filterMap.mpr ⟨leaf, here, same.symm⟩))

/-! ## Availability -/

/-- What a conjunct of an availability read adds. -/
inductive Collects (lib : Library) (f : AvailabilityFilters) : Expr → AvailabilityFilters → Prop where
  | one {left right : Expr} {id : Ulid} (column : exprColumnName lib left = some "resource_id")
      (fresh : f.resourceId = none) (parsed : parseUlidExpr lib right = .ok id) :
      Collects lib f (.binaryOp left .eq right) { f with resourceId := some id }
  | duration {left right : Expr} {d : Ms} (column : exprColumnName lib left = some "min_duration")
      (parsed : parseI64Expr lib right = .ok d) : Collects lib f (.binaryOp left .eq right) { f with minDuration := some d }
  | number {left right : Expr} {v : Ms} (column : exprColumnName lib left = some "min_available")
      (parsed : parseI64Expr lib right = .ok v) :
      Collects lib f (.binaryOp left .eq right) { f with minAvailable := some v.toNat }
  | start {left right : Expr} {v : Ms} (column : exprColumnName lib left = some "start")
      (parsed : parseI64Expr lib right = .ok v) :
      Collects lib f (.binaryOp left .gtEq right) { f with start := some (f.start.elim v (max · v)) }
  | stop {left right : Expr} {v : Ms} (column : exprColumnName lib left = some "end")
      (parsed : parseI64Expr lib right = .ok v) :
      Collects lib f (.binaryOp left .ltEq right) { f with stop := some (f.stop.elim v (min · v)) }
  | listed {column : Expr} {list : List Expr} {ids : List Ulid} (name : exprColumnName lib column = some "resource_id")
      (parsed : list.mapM (parseUlidExpr lib) = .ok ids) :
      Collects lib f (.inList column list false) { f with resourceIds := f.resourceIds ++ ids }

theorem extractOne_collects {f f' : AvailabilityFilters} {leaf : Expr}
    (extracted : extractOneAvailabilityFilter lib f leaf = .ok f') : Collects lib f leaf f' := by
  unfold extractOneAvailabilityFilter at extracted
  split at extracted
  · next left right =>
      split at extracted
      · next column =>
          split at extracted
          · cases extracted
          · next fresh =>
              obtain ⟨id, parsed, same⟩ := Outcome.bind_ok.mp extracted
              cases same
              exact .one column (Option.not_isSome_iff_eq_none.mp fresh) parsed
      · next column =>
          obtain ⟨d, parsed, same⟩ := Outcome.bind_ok.mp extracted
          cases same
          exact .duration column parsed
      · next column =>
          obtain ⟨v, parsed, same⟩ := Outcome.bind_ok.mp extracted
          split at same
          · cases same
          · cases same
            exact .number column parsed
      · cases extracted
  · next left op right notEq =>
      split at extracted
      · next bound =>
          obtain ⟨v, parsed, same⟩ := Outcome.bind_ok.mp extracted
          obtain ⟨rfl, column⟩ := bound
          cases same
          exact .start column parsed
      · split at extracted
        · next bound =>
            obtain ⟨v, parsed, same⟩ := Outcome.bind_ok.mp extracted
            obtain ⟨rfl, column⟩ := bound
            cases same
            exact .stop column parsed
        · cases extracted
  · next column list negated =>
      split at extracted
      · next listing =>
          obtain ⟨ids, parsed, same⟩ := Outcome.bind_ok.mp extracted
          cases same
          simp only [Bool.and_eq_true, Bool.not_eq_true', decide_eq_true_eq] at listing
          obtain ⟨rfl, name⟩ := listing
          unfold parseInList at parsed
          split at parsed
          · cases parsed
          · exact .listed name parsed
      · cases extracted
  · cases extracted

/-- What conjuncts have added to what was collected before. -/
structure Extracted (lib : Library) (leaves : List Expr) (f f' : AvailabilityFilters) : Prop where
  resourceIds : f'.resourceIds = f.resourceIds ++ (leaves.filterMap (inList lib)).flatten
  start : f'.start = (f.start.toList ++ leaves.filterMap (given lib "start" .gtEq)).max?
  stop : f'.stop = (f.stop.toList ++ leaves.filterMap (given lib "end" .ltEq)).min?
  minDuration : f'.minDuration = (f.minDuration.toList ++ leaves.filterMap (given lib "min_duration" .eq)).getLast?
  minAvailable : f'.minAvailable =
    (f.minAvailable.toList ++ (leaves.filterMap (given lib "min_available" .eq)).map Int.toNat).getLast?
  lists : leaves.any (isResourceIdInList lib) = !(leaves.filterMap (inList lib)).isEmpty
  numbers : leaves.any (isMinAvailableEq lib) = !(leaves.filterMap (given lib "min_available" .eq)).isEmpty
  /-- Without lists, all that is named is the single resource. -/
  single : leaves.filterMap (inList lib) = [] →
    f.resourceId.toList.map ([·]) ++ leaves.filterMap (named lib) = f'.resourceId.toList.map ([·])

theorem max_push {o : Option Ms} {v : Ms} {rest : List Ms} :
    ((some (o.elim v (max · v))).toList ++ rest).max? = (o.toList ++ v :: rest).max? := by
  cases o with
  | none => rfl
  | some a =>
      change ((max a v) :: rest).max? = (a :: v :: rest).max?
      rw [List.max?_cons', List.max?_cons', List.foldl_cons]

theorem min_push {o : Option Ms} {v : Ms} {rest : List Ms} :
    ((some (o.elim v (min · v))).toList ++ rest).min? = (o.toList ++ v :: rest).min? := by
  cases o with
  | none => rfl
  | some a =>
      change ((min a v) :: rest).min? = (a :: v :: rest).min?
      rw [List.min?_cons', List.min?_cons', List.foldl_cons]

theorem last_push {α : Type} {o : Option α} {v : α} {rest : List α} :
    ((some v).toList ++ rest).getLast? = (o.toList ++ v :: rest).getLast? := by
  cases o <;> simp [List.getLast?_cons_cons]

theorem extracted_nil (f : AvailabilityFilters) : Extracted lib [] f f where
  resourceIds := by simp
  start := by cases f.start <;> rfl
  stop := by cases f.stop <;> rfl
  minDuration := by cases f.minDuration <;> rfl
  minAvailable := by cases f.minAvailable <;> rfl
  lists := rfl
  numbers := rfl
  single := fun _ => by simp

theorem extracted_cons {leaf : Expr} {rest : List Expr} {f f₁ f' : AvailabilityFilters}
    (collects : Collects lib f leaf f₁) (later : Extracted lib rest f₁ f') : Extracted lib (leaf :: rest) f f' := by
  cases collects with
  | @one left right id column fresh parsed =>
      have names : named lib (.binaryOp left .eq right) = some [id] := by simp [named, column, parsed, Except.toOption]
      have list : inList lib (.binaryOp left .eq right) = none := rfl
      constructor
      case single =>
        intro noLists
        simp only [List.filterMap_cons, list] at noLists
        simpa [names, fresh] using later.single noLists
      all_goals
        simp only [List.filterMap_cons, list, List.any_cons, isResourceIdInList, isMinAvailableEq, given, column]
        simp [later.resourceIds, later.start, later.stop, later.minDuration, later.minAvailable, later.lists,
          later.numbers]
  | @duration left right d column parsed =>
      have names : named lib (.binaryOp left .eq right) = none := by simp [named, column]
      have list : inList lib (.binaryOp left .eq right) = none := rfl
      have gives : given lib "min_duration" .eq (.binaryOp left .eq right) = some d := by
        simp [given, column, parsed, Except.toOption]
      constructor
      case single => simpa [names, list] using later.single
      case minDuration => rw [List.filterMap_cons, gives, ← last_push]; exact later.minDuration
      all_goals
        simp only [List.filterMap_cons, list, List.any_cons, isResourceIdInList, isMinAvailableEq, given, column]
        simp [later.resourceIds, later.start, later.stop, later.minAvailable, later.lists, later.numbers]
  | @number left right v column parsed =>
      have names : named lib (.binaryOp left .eq right) = none := by simp [named, column]
      have list : inList lib (.binaryOp left .eq right) = none := rfl
      have gives : given lib "min_available" .eq (.binaryOp left .eq right) = some v := by
        simp [given, column, parsed, Except.toOption]
      constructor
      case single => simpa [names, list] using later.single
      case minAvailable => rw [List.filterMap_cons, gives, List.map_cons, ← last_push]; exact later.minAvailable
      case numbers => simp [gives, isMinAvailableEq, column]
      all_goals
        simp only [List.filterMap_cons, list, List.any_cons, isResourceIdInList, given, column]
        simp [later.resourceIds, later.start, later.stop, later.minDuration, later.lists]
  | @start left right v column parsed =>
      have names : named lib (.binaryOp left .gtEq right) = none := rfl
      have list : inList lib (.binaryOp left .gtEq right) = none := rfl
      have gives : given lib "start" .gtEq (.binaryOp left .gtEq right) = some v := by
        simp [given, column, parsed, Except.toOption]
      constructor
      case single => simpa [names, list] using later.single
      case start => rw [List.filterMap_cons, gives, ← max_push]; exact later.start
      all_goals
        simp only [List.filterMap_cons, list, List.any_cons, isResourceIdInList, isMinAvailableEq, given, column]
        simp [later.resourceIds, later.stop, later.minDuration, later.minAvailable, later.lists, later.numbers]
  | @stop left right v column parsed =>
      have names : named lib (.binaryOp left .ltEq right) = none := rfl
      have list : inList lib (.binaryOp left .ltEq right) = none := rfl
      have gives : given lib "end" .ltEq (.binaryOp left .ltEq right) = some v := by
        simp [given, column, parsed, Except.toOption]
      constructor
      case single => simpa [names, list] using later.single
      case stop => rw [List.filterMap_cons, gives, ← min_push]; exact later.stop
      all_goals
        simp only [List.filterMap_cons, list, List.any_cons, isResourceIdInList, isMinAvailableEq, given, column]
        simp [later.resourceIds, later.start, later.minDuration, later.minAvailable, later.lists, later.numbers]
  | @listed column list ids name parsed =>
      have names : named lib (.inList column list false) = some ids := by simp [named, name, parsed, Except.toOption]
      have isList : isResourceIdInList lib (.inList column list false) = true := by simp [isResourceIdInList, name]
      have lists : inList lib (.inList column list false) = some ids := by rw [inList, if_pos isList, names]
      constructor
      case single => intro noLists; simp [lists] at noLists
      case lists => simp [lists, isList]
      case resourceIds => simp [later.resourceIds, lists]
      all_goals
        simp only [List.filterMap_cons, List.any_cons, isMinAvailableEq, given]
        simp [later.start, later.stop, later.minDuration, later.minAvailable, later.numbers]

theorem foldlM_extracted {leaves : List Expr} {f f' : AvailabilityFilters}
    (extracted : leaves.foldlM (extractOneAvailabilityFilter lib) f = .ok f') : Extracted lib leaves f f' := by
  induction leaves generalizing f with
  | nil =>
      cases extracted
      exact extracted_nil _
  | cons leaf rest ih =>
      rw [List.foldlM_cons] at extracted
      obtain ⟨f₁, here, later⟩ := Outcome.bind_ok.mp extracted
      exact extracted_cons (extractOne_collects here) (ih later)

theorem Extracted.shape {f f' : AvailabilityFilters} (all : Extracted lib (flattenConjuncts clause) f f') :
    availabilityShape lib (some clause) =
      if (flattenConjuncts clause).filterMap (inList lib) = [] then .single
      else if (flattenConjuncts clause).filterMap (given lib "min_available" .eq) = [] then .perResourceMulti
      else .merged := by
  have leaves : conjunctsOf (some clause) = flattenConjuncts clause := rfl
  simp only [availabilityShape, leaves, all.lists, all.numbers]
  cases (flattenConjuncts clause).filterMap (inList lib) with
  | nil => rfl
  | cons =>
      cases (flattenConjuncts clause).filterMap (given lib "min_available" .eq) with
      | nil => rfl
      | cons => rfl

theorem checkMinAvailable_ok {f : AvailabilityFilters} {u : Unit} (checked : checkMinAvailable f = .ok u) :
    ∀ n ∈ f.minAvailable, f.resourceIds ≠ [] ∧ 0 < n ∧ n ≤ f.resourceIds.length := by
  intro n asked
  rw [Option.mem_def] at asked
  rw [checkMinAvailable, asked] at checked
  simp only at checked
  split at checked
  · cases checked
  · next some' =>
      split at checked
      · cases checked
      · next positive =>
          split at checked
          · cases checked
          · next few => exact ⟨fun none' => some' (by rw [none']; rfl), Nat.pos_of_ne_zero positive, Nat.not_lt.mp few⟩

theorem elim_ok {α ε : Type} {o : Option α} {error : ε} {a : α} (found : o.elim (.error error) .ok = (.ok a : Except ε α)) :
    o = some a := by
  cases o with
  | none => cases found
  | some b =>
      cases found
      rfl

/-- What an accepted clause on availability asks for. -/
inductive Asks (lib : Library) (clause : Expr) (start stop : Ms) : Command → Prop where
  | single {id : Ulid} (noLists : lists lib clause = []) (names : resources lib clause = [[id]])
      (plain : numbers lib clause = []) :
      Asks lib clause start stop (.selectAvailability id start stop (durations lib clause).getLast?)
  | multi (some' : lists lib clause ≠ []) (plain : numbers lib clause = []) :
      Asks lib clause start stop (.selectAvailabilityMulti (listed lib clause) start stop (durations lib clause).getLast?)
  | merged {n : Nat} (some' : lists lib clause ≠ []) (asked : (numbers lib clause).getLast? = some n) (positive : 0 < n)
      (few : n ≤ (listed lib clause).length) :
      Asks lib clause start stop
        (.selectMultiAvailability (listed lib clause) start stop n (durations lib clause).getLast?)

theorem selectAvailability_asks {command : Command} (accepted : selectAvailability lib (some clause) = .ok command) :
    ∃ start stop, windowStart lib clause = some start ∧ windowEnd lib clause = some stop ∧
      Asks lib clause start stop command := by
  unfold selectAvailability at accepted
  obtain ⟨f, extracted, accepted⟩ := Outcome.bind_ok.mp accepted
  obtain ⟨start, started, accepted⟩ := Outcome.bind_ok.mp accepted
  obtain ⟨stop, stopped, accepted⟩ := Outcome.bind_ok.mp accepted
  have all : Extracted lib (flattenConjuncts clause) .default f := foldlM_extracted extracted
  have starts : f.start = windowStart lib clause := all.start
  have stops : f.stop = windowEnd lib clause := all.stop
  have many' : f.resourceIds = listed lib clause := all.resourceIds
  have shortest : f.minDuration = (durations lib clause).getLast? := all.minDuration
  have asked : f.minAvailable = (numbers lib clause).getLast? := all.minAvailable
  refine ⟨start, stop, starts ▸ elim_ok started, stops ▸ elim_ok stopped, ?_⟩
  split at accepted
  · cases accepted
  · next one =>
      obtain ⟨u, checked, accepted⟩ := Outcome.bind_ok.mp accepted
      have number := checkMinAvailable_ok checked
      rw [many', shortest, asked] at accepted
      rw [many', asked] at number
      rw [all.shape] at accepted
      by_cases noLists : (flattenConjuncts clause).filterMap (inList lib) = []
      · have empty : listed lib clause = [] := by rw [listed, lists, noLists]; rfl
        rw [if_pos noLists] at accepted
        obtain ⟨id, chosen, same⟩ := Outcome.bind_ok.mp accepted
        cases same
        have names : resources lib clause = f.resourceId.toList.map ([·]) := all.single noLists
        rw [elim_ok chosen] at names
        refine .single noLists names ?_
        rw [← List.getLast?_eq_none_iff, Option.eq_none_iff_forall_not_mem]
        exact fun n asked => (number n asked).1 empty
      · rw [if_neg noLists] at accepted
        by_cases noNumbers : (flattenConjuncts clause).filterMap (given lib "min_available" .eq) = []
        · rw [if_pos noNumbers] at accepted
          cases accepted
          exact .multi noLists (by rw [numbers, noNumbers]; rfl)
        · rw [if_neg noNumbers] at accepted
          obtain ⟨n, last, same⟩ := Outcome.bind_ok.mp accepted
          cases same
          have last := elim_ok last
          obtain ⟨-, positive, few⟩ := number n last
          exact .merged noLists last positive few

end Clauses

end Sql

end Deltat
