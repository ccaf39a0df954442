import Deltat.Instants
import Deltat.Runs

/-! # Availability through the hierarchy

A read walks the ancestors of its resource, takes the schedule of the nearest one that
defines any, and the blocking rules of all. Both decisions are about the resources, so the
answer for an instant does not depend on the window around it.
-/

namespace Deltat

open Lib Lib.Outcome Limits Availability ResourceState

namespace InMemoryStore

variable {s : InMemoryStore} {r : Ulid} {line : List ResourceState}

/-- The ancestors of a resource, nearest first, as the parent index leads to them. -/
inductive Ancestors (s : InMemoryStore) : Ulid → List ResourceState → Prop
  | root {r : Ulid} (top : s.getParent r = none) : Ancestors s r []
  | under {r p : Ulid} {parent : ResourceState} {line : List ResourceState} (linked : s.getParent r = some p)
      (present : s.getResource p = some parent) (above : Ancestors s p line) : Ancestors s r (parent :: line)

/-- A tree of resources: every chain of parents ends within the depth limit, and the
    intervals are ones that the write path admits. -/
structure WellFormedTree (s : InMemoryStore) : Prop where
  timelines : ∀ r rs, s.getResource r = some rs → rs.Timeline
  ends : ∀ r rs, s.getResource r = some rs → ∀ i ∈ rs.intervals, i.span.end ≤ maxValidTimestampMs
  ancestors : ∀ r rs, s.getResource r = some rs → ∃ line, s.Ancestors r line ∧ line.length ≤ maxHierarchyDepth

theorem Ancestors.unique {other : List ResourceState} (lineage : s.Ancestors r line)
    (lineage' : s.Ancestors r other) : line = other := by
  induction lineage generalizing other with
  | root top =>
      cases lineage' with
      | root => rfl
      | under linked => rw [top] at linked; cases linked
  | under linked present above ih =>
      cases lineage' with
      | root top => rw [top] at linked; cases linked
      | under linked' present' above' =>
          rw [linked] at linked'
          cases linked'
          rw [present] at present'
          cases present'
          rw [ih above']

theorem Ancestors.present (lineage : s.Ancestors r line) : ∀ rs ∈ line, ∃ p, s.getResource p = some rs := by
  induction lineage with
  | root => simp
  | @under _ p _ _ _ present _ ih =>
      intro rs inside
      rcases List.mem_cons.mp inside with same | higher
      · exact ⟨p, same ▸ present⟩
      · exact ih rs higher

/-- The walk up visits nothing twice, because every resource on the way has fewer ancestors
    than those visited before it. -/
theorem Ancestors.chain (lineage : s.Ancestors r line) {fuel : Nat} (enough : line.length ≤ fuel)
    {visited : List Ulid} (below : ∀ v ∈ visited, ∃ lower, s.Ancestors v lower ∧ line.length ≤ lower.length) :
    ∃ chain, s.ancestorChain fuel visited (s.getParent r) = .ok chain ∧
      chain.map s.getResource = line.map some := by
  induction lineage generalizing fuel visited with
  | root top => exact ⟨[], by rw [top, ancestorChain_none], rfl⟩
  | @under r p parent line linked present above ih =>
      obtain ⟨fuel, rfl⟩ : ∃ n, fuel = n + 1 := Nat.exists_eq_add_one.mpr (Nat.lt_of_lt_of_le (by simp) enough)
      have fresh : p ∉ visited := by
        intro again
        obtain ⟨lower, lineage, longer⟩ := below p again
        rw [← above.unique lineage, List.length_cons] at longer
        omega
      obtain ⟨chain, walked, found⟩ := @ih fuel (by simpa using enough) (p :: visited) (by
        intro v inside
        rcases List.mem_cons.mp inside with rfl | earlier
        · exact ⟨line, above, le_refl _⟩
        · obtain ⟨lower, lineage, longer⟩ := below v earlier
          exact ⟨lower, lineage, (Nat.le_succ _).trans longer⟩)
      refine ⟨p :: chain, ?_, by rw [List.map_cons, List.map_cons, found, present]⟩
      rw [linked, ancestorChain_some, if_neg fresh, walked]
      rfl

theorem inheritAlong_eq (query : Span) {chain : List Ulid} (found : chain.map s.getResource = line.map some)
    (rules : InheritedRules) : s.inheritAlong query chain rules = .ok (line.foldl (inheritFrom query) rules) := by
  induction chain generalizing line rules with
  | nil =>
      rw [List.map_nil, List.nil_eq, List.map_eq_nil_iff] at found
      rw [found]
      rfl
  | cons p chain ih =>
      cases line with
      | nil => cases found
      | cons parent line =>
          obtain ⟨present, higher⟩ := List.cons.inj found
          unfold inheritAlong
          rw [present]
          exact ih higher _

/-! ## What the walk collects, at an instant -/

section Collected

variable {query : Span} {t : Ms}

theorem inherited_hasSchedule (rules : InheritedRules) :
    (line.foldl (inheritFrom query) rules).ancestorHasSchedule =
      (rules.ancestorHasSchedule || line.any hasNonBlockingRule) := by
  induction line generalizing rules with
  | nil => simp
  | cons parent line ih => rw [List.foldl_cons, ih, List.any_cons, ← Bool.or_assoc]; rfl

theorem inherited_blocking (timelines : ∀ rs ∈ line, rs.Timeline) (started : query.start ≤ t)
    (notEnded : t < query.end) (rules : InheritedRules) :
    Covers (line.foldl (inheritFrom query) rules).blocking t ↔
      Covers rules.blocking t ∨ ∃ rs ∈ line, rs.hasRuleAt .blocking t = true := by
  induction line generalizing rules with
  | nil => simp
  | cons parent line ih =>
      have here := covers_clamped (timelines parent List.mem_cons_self).sorted .blocking started notEnded
      have above := ih (fun rs inside => timelines rs (List.mem_cons_of_mem _ inside)) (inheritFrom query rules parent)
      have adds : Covers (inheritFrom query rules parent).blocking t ↔
          Covers rules.blocking t ∨ parent.hasRuleAt .blocking t = true := covers_append.trans (or_congr Iff.rfl here)
      rw [List.foldl_cons, above, adds, List.exists_mem_cons_iff, or_assoc]

theorem hasNonBlockingRule_of_hasRuleAt {rs : ResourceState} (open' : rs.hasRuleAt .nonBlocking t = true) :
    rs.hasNonBlockingRule = true := by
  obtain ⟨i, inside, holds⟩ := List.any_eq_true.mp open'
  rw [Bool.and_eq_true] at holds
  exact List.any_eq_true.mpr ⟨i, inside, holds.1⟩

/-- The non-blocking rules collected are those of the nearest ancestor with a schedule. -/
theorem inherited_nonBlocking (timelines : ∀ rs ∈ line, rs.Timeline) (started : query.start ≤ t)
    (notEnded : t < query.end) (rules : InheritedRules) :
    Covers (line.foldl (inheritFrom query) rules).nonBlocking t ↔
      Covers rules.nonBlocking t ∨ rules.ancestorHasSchedule = false ∧
        ∃ rs, line.find? hasNonBlockingRule = some rs ∧ rs.hasRuleAt .nonBlocking t = true := by
  induction line generalizing rules with
  | nil => simp
  | cons parent line ih =>
      have here := covers_clamped (timelines parent List.mem_cons_self).sorted .nonBlocking started notEnded
      have above := ih (fun rs inside => timelines rs (List.mem_cons_of_mem _ inside)) (inheritFrom query rules parent)
      have scheduled := @hasNonBlockingRule_of_hasRuleAt t parent
      rw [List.foldl_cons, above, List.find?_cons]
      cases earlier : rules.ancestorHasSchedule with
      | true => simp [inheritFrom, earlier]
      | false =>
          have adds : Covers (inheritFrom query rules parent).nonBlocking t ↔
              Covers rules.nonBlocking t ∨ parent.hasRuleAt .nonBlocking t = true := by
            simp only [inheritFrom, earlier]
            exact covers_append.trans (or_congr Iff.rfl here)
          rw [adds]
          cases own : parent.hasNonBlockingRule with
          | true => simp [inheritFrom, earlier, own]
          | false =>
              have shut : parent.hasRuleAt .nonBlocking t = false := by
                rw [← Bool.not_eq_true]
                intro open'
                rw [own] at scheduled
                cases scheduled open'
              simp [inheritFrom, earlier, own, shut]

/-- What the walk collects lies inside the query. -/
theorem inherited_within (rules : InheritedRules)
    (covered : Covers (line.foldl (inheritFrom query) rules).nonBlocking t) :
    Covers rules.nonBlocking t ∨ query.start ≤ t ∧ t < query.end := by
  induction line generalizing rules with
  | nil => exact .inl covered
  | cons parent line ih =>
      rcases ih _ covered with below | inside
      · cases earlier : rules.ancestorHasSchedule with
        | true =>
            simp only [inheritFrom, earlier] at below
            exact .inl below
        | false =>
            simp only [inheritFrom, earlier] at below
            exact (covers_append.mp below).imp id clamped_within
      · exact .inr inside

end Collected

/-- The walk collects the rules of every ancestor, sorted by their starts. -/
theorem collectInheritedRules_ok (lineage : s.Ancestors r line) (shallow : line.length ≤ maxHierarchyDepth)
    (query : Span) : s.collectInheritedRules r (s.getParent r) query =
      .ok { line.foldl (inheritFrom query) ⟨[], [], false⟩ with
        nonBlocking := sortByStart (line.foldl (inheritFrom query) ⟨[], [], false⟩).nonBlocking
        blocking := sortByStart (line.foldl (inheritFrom query) ⟨[], [], false⟩).blocking } := by
  obtain ⟨chain, walked, found⟩ := @Ancestors.chain s r line lineage maxHierarchyDepth shallow [r] (by
    intro v inside
    rw [List.mem_singleton.mp inside]
    exact ⟨line, lineage, le_refl _⟩)
  have along := inheritAlong_eq query found ⟨[], [], false⟩
  unfold collectInheritedRules
  rw [walked]
  change (s.inheritAlong query chain _ >>= _) = _
  rw [along]
  rfl

end InMemoryStore

/-! ## Reads -/

/-- What it means for an instant of a resource to be free: the nearest resource with a
    schedule opens it, no blocking rule on the way up closes it, and there is room. -/
def ResourceState.FreeUnder (rs : ResourceState) (line : List ResourceState) (now t : Ms) : Prop :=
  (∃ nearest, (rs :: line).find? hasNonBlockingRule = some nearest ∧ nearest.hasRuleAt .nonBlocking t = true) ∧
    (∀ each ∈ rs :: line, each.hasRuleAt .blocking t = false) ∧ rs.liveAt now t < max rs.capacity.toNat 1

namespace InMemoryStore

variable {s : InMemoryStore} {r : Ulid} {rs : ResourceState} {line : List ResourceState} {now t : Ms}

/-- Inside its window a read with the collected rules is free where the resource is. -/
theorem read_covers {query : Span} (timelines : ∀ each ∈ rs :: line, each.Timeline) (started : query.start ≤ t)
    (notEnded : t < query.end) (range : t < i64Max) :
    Covers (availability rs query
        (sortByStart (line.foldl (inheritFrom query) ⟨[], [], false⟩).nonBlocking)
        (sortByStart (line.foldl (inheritFrom query) ⟨[], [], false⟩).blocking) now) t ↔ rs.FreeUnder line now t := by
  obtain ⟨own, higher⟩ := List.forall_mem_cons.mp timelines
  have opens := inherited_nonBlocking higher started notEnded ⟨[], [], false⟩
  have closes := inherited_blocking higher started notEnded ⟨[], [], false⟩
  rw [or_iff_right covers_nil] at closes opens
  unfold FreeUnder
  rw [availability_covers own _ _ started notEnded range, covers_sortByStart, covers_sortByStart, closes, opens,
    List.find?_cons, List.forall_mem_cons]
  cases rs.hasNonBlockingRule <;> simp [and_assoc]

theorem read_within {query : Span} {blocking : List Span}
    (free : Covers (availability rs query
      (sortByStart (line.foldl (inheritFrom query) ⟨[], [], false⟩).nonBlocking) blocking now) t) :
    query.start ≤ t ∧ t < query.end := by
  have base := covers_base_of_availability free
  split at base
  · exact clamped_within base
  · exact (inherited_within _ (covers_sortByStart.mp base)).resolve_left covers_nil

/-- The bounds a read works with: those of the request, clamped into the valid range. -/
def clampTimestamp (ts : Ms) : Ms := max minValidTimestampMs (min maxValidTimestampMs ts)

theorem computeAvailability_ok (present : s.getResource r = some rs) (lineage : s.Ancestors r line)
    (shallow : line.length ≤ maxHierarchyDepth) {queryStart queryEnd : Ms}
    (width : satSub (clampTimestamp queryEnd) (clampTimestamp queryStart) ≤ maxQueryWindowMs) :
    s.computeAvailability now r queryStart queryEnd none =
      .ok (if clampTimestamp queryEnd ≤ clampTimestamp queryStart then []
        else
          let query : Span := ⟨clampTimestamp queryStart, clampTimestamp queryEnd⟩
          availability rs query
            (sortByStart (line.foldl (inheritFrom query) ⟨[], [], false⟩).nonBlocking)
            (sortByStart (line.foldl (inheritFrom query) ⟨[], [], false⟩).blocking) now) := by
  change (if clampTimestamp queryEnd ≤ clampTimestamp queryStart then Except.ok []
    else if satSub (clampTimestamp queryEnd) (clampTimestamp queryStart) > maxQueryWindowMs then _ else _) = _
  by_cases empty : clampTimestamp queryEnd ≤ clampTimestamp queryStart
  · rw [if_pos empty, if_pos empty]
  · rw [if_neg empty, if_neg (by lia), if_neg empty, present]
    simp only
    rw [collectInheritedRules_ok lineage shallow]
    rfl

theorem accepted_width {queryStart queryEnd : Ms} {free : List Span}
    (accepted : s.computeAvailability now r queryStart queryEnd none = .ok free) :
    satSub (clampTimestamp queryEnd) (clampTimestamp queryStart) ≤ maxQueryWindowMs := by
  change (if clampTimestamp queryEnd ≤ clampTimestamp queryStart then Except.ok []
    else if satSub (clampTimestamp queryEnd) (clampTimestamp queryStart) > maxQueryWindowMs then _ else _) = _
    at accepted
  split at accepted
  · next empty =>
      simp only [satSub, i64Min, i64Max, maxQueryWindowMs]
      lia
  · split at accepted
    · cases accepted
    · next narrow => exact not_lt.mp narrow

/-- No resource of a tree is free before the epoch or behind the last valid timestamp. -/
theorem FreeUnder.valid (tree : s.WellFormedTree) (present : s.getResource r = some rs)
    (lineage : s.Ancestors r line) (free : rs.FreeUnder line now t) :
    minValidTimestampMs ≤ t ∧ t < maxValidTimestampMs := by
  obtain ⟨⟨nearest, found, open'⟩, _⟩ := free
  obtain ⟨p, here⟩ : ∃ p, s.getResource p = some nearest := by
    rcases List.mem_cons.mp (List.mem_of_find?_eq_some found) with own | higher
    · exact ⟨r, own ▸ present⟩
    · exact lineage.present nearest higher
  obtain ⟨i, inside, holds⟩ := List.any_eq_true.mp open'
  simp only [Span.containsInstant, Bool.and_eq_true, decide_eq_true_eq] at holds
  have lower := ((tree.timelines p nearest here).spans i inside).lower
  have upper := tree.ends p nearest here i inside
  simp only [minValidTimestampMs]
  lia

/-- A read over a window, up to the width limit, succeeds and is free exactly at the
    instants of the window at which the resource is. -/
theorem computeAvailability_covers (tree : s.WellFormedTree) (present : s.getResource r = some rs)
    (lineage : s.Ancestors r line) (now : Ms) {queryStart queryEnd : Ms}
    (width : satSub (clampTimestamp queryEnd) (clampTimestamp queryStart) ≤ maxQueryWindowMs) :
    ∃ free, s.computeAvailability now r queryStart queryEnd none = .ok free ∧
      ∀ t, queryStart ≤ t → t < queryEnd → (Covers free t ↔ rs.FreeUnder line now t) := by
  have shallow : line.length ≤ maxHierarchyDepth := by
    obtain ⟨other, lineage', shallow⟩ := tree.ancestors r rs present
    exact lineage.unique lineage' ▸ shallow
  have timelines : ∀ each ∈ rs :: line, each.Timeline := by
    intro each inside
    rcases List.mem_cons.mp inside with own | higher
    · exact own ▸ tree.timelines r rs present
    · obtain ⟨p, here⟩ := lineage.present each higher
      exact tree.timelines p each here
  refine ⟨_, computeAvailability_ok present lineage shallow width, fun t started notEnded => ?_⟩
  have inWindow : minValidTimestampMs ≤ t ∧ t < maxValidTimestampMs →
      clampTimestamp queryStart ≤ t ∧ t < clampTimestamp queryEnd := by
    unfold clampTimestamp
    lia
  have small : maxValidTimestampMs ≤ i64Max := by decide
  split
  · next empty =>
      apply iff_of_false covers_nil
      intro free
      have inside := inWindow (FreeUnder.valid tree present lineage free)
      lia
  · constructor
    · intro free
      obtain ⟨from', upTo⟩ := read_within free
      have end' : clampTimestamp queryEnd ≤ maxValidTimestampMs := by
        unfold clampTimestamp
        simp only [minValidTimestampMs, maxValidTimestampMs]
        lia
      exact (read_covers timelines from' upTo (by lia)).mp free
    · intro free
      have valid := FreeUnder.valid tree present lineage free
      obtain ⟨from', upTo⟩ := inWindow valid
      exact (read_covers timelines from' upTo (by lia)).mpr free

/-- A read is free at exactly the free instants of its window, it is refused for its width
    only, and two windows agree on the instants they share. -/
theorem availability_at_every_instant (tree : s.WellFormedTree) (present : s.getResource r = some rs)
    (lineage : s.Ancestors r line) (now : Ms) :
    (∀ queryStart queryEnd, satSub (clampTimestamp queryEnd) (clampTimestamp queryStart) ≤ maxQueryWindowMs →
        ∃ free, s.computeAvailability now r queryStart queryEnd none = .ok free) ∧
      (∀ queryStart queryEnd free, s.computeAvailability now r queryStart queryEnd none = .ok free →
        ∀ t, queryStart ≤ t → t < queryEnd → (Covers free t ↔ rs.FreeUnder line now t)) ∧
      ∀ queryStart queryEnd free otherStart otherEnd other,
        s.computeAvailability now r queryStart queryEnd none = .ok free →
        s.computeAvailability now r otherStart otherEnd none = .ok other →
        ∀ t, queryStart ≤ t → t < queryEnd → otherStart ≤ t → t < otherEnd → (Covers free t ↔ Covers other t) := by
  have exact' : ∀ queryStart queryEnd free, s.computeAvailability now r queryStart queryEnd none = .ok free →
      ∀ t, queryStart ≤ t → t < queryEnd → (Covers free t ↔ rs.FreeUnder line now t) := by
    intro queryStart queryEnd free accepted
    obtain ⟨free', read, covers⟩ := computeAvailability_covers tree present lineage now (accepted_width accepted)
    rw [accepted] at read
    cases read
    exact covers
  refine ⟨fun queryStart queryEnd width => ?_, exact', ?_⟩
  · obtain ⟨free, read, _⟩ := computeAvailability_covers tree present lineage now width
    exact ⟨free, read⟩
  · intro queryStart queryEnd free otherStart otherEnd other accepted accepted' t started notEnded started' notEnded'
    rw [exact' _ _ _ accepted t started notEnded, exact' _ _ _ accepted' t started' notEnded']

end InMemoryStore

/-! ## The tree of a running engine -/

namespace InMemoryStore

variable {s s' : InMemoryStore} {r : Ulid} {line : List ResourceState}

/-- Every resource has its chain of ancestors, within the depth limit. -/
def Shallow (s : InMemoryStore) : Prop :=
  ∀ r rs, s.getResource r = some rs → ∃ line, s.Ancestors r line ∧ line.length ≤ maxHierarchyDepth

theorem Consistent.wellFormedTree (c : s.Consistent) (shallow : s.Shallow) : s.WellFormedTree where
  timelines r rs present := (c.wellFormed r rs present).timeline
  ends r rs present i inside := ((c.wellFormed r rs present).admitted i inside).span.upper
  ancestors := shallow

/-- A chain of ancestors stays while the resources that both stores have keep their parents. -/
theorem Ancestors.carried (lineage : s.Ancestors r line) (c : s.Consistent) (c' : s'.Consistent)
    (same : ∀ x rs rs', s.getResource x = some rs → s'.getResource x = some rs' → rs'.parentId = rs.parentId)
    {rs rs' : ResourceState} (before : s.getResource r = some rs) (after : s'.getResource r = some rs') :
    ∃ line', s'.Ancestors r line' ∧ line'.length = line.length := by
  induction lineage generalizing rs rs' with
  | @root r top =>
      rw [c.parents, before] at top
      refine ⟨[], .root ?_, rfl⟩
      rw [c'.parents, after]
      exact (same r rs rs' before after).trans top
  | @under r p parent line linked present above ih =>
      rw [c.parents, before] at linked
      have linked' : rs'.parentId = some p := (same r rs rs' before after).trans linked
      obtain ⟨parent', present'⟩ := Option.isSome_iff_exists.mp (c'.parentExists r rs' p after linked')
      obtain ⟨line', lineage', length⟩ := ih present present'
      refine ⟨parent' :: line', .under ?_ present' lineage', congrArg Nat.succ length⟩
      rw [c'.parents, after]
      exact linked'

/-- The depth check counts the new resource's parent and all its ancestors. -/
theorem Ancestors.checkDepth_ok (lineage : s.Ancestors r line) {fuel : Nat}
    (passed : Engine.checkDepth s fuel (some r) = .ok ()) : line.length + 1 ≤ fuel := by
  induction lineage generalizing fuel with
  | root =>
      cases fuel with
      | zero => cases passed
      | succ fuel => exact Nat.succ_le_succ (Nat.zero_le _)
  | under linked _ _ ih =>
      cases fuel with
      | zero => cases passed
      | succ fuel =>
          change Engine.checkDepth s fuel (s.getParent _) = .ok () at passed
          rw [linked] at passed
          exact Nat.succ_le_succ (ih passed)

end InMemoryStore

namespace Event

/-- A record other than the creation of a resource leaves its parent alone. -/
theorem stepOn_parentId {ev : Event} {r : Ulid} {rs rs' : ResourceState} (change : ev.isChange)
    (step : ev.stepOn r (some rs) = some rs') : rs'.parentId = rs.parentId := by
  rw [stepOn_change change, Option.map_some] at step
  cases step
  generalize ev.changesOn r = changes
  induction changes generalizing rs with
  | nil => rfl
  | cons change rest ih => exact ih.trans (ResourceState.applySingle_parentId change)

theorem foldl_stepOn_parentId {records : List Event} (changes : ∀ ev ∈ records, ev.isChange) {r : Ulid}
    {rs rs' : ResourceState} (run : records.foldl (fun entry ev => ev.stepOn r entry) (some rs) = some rs') :
    rs'.parentId = rs.parentId := by
  induction records generalizing rs with
  | nil =>
      cases run
      rfl
  | cons ev rest ih =>
      obtain ⟨first, others⟩ := List.forall_mem_cons.mp changes
      rw [List.foldl_cons, stepOn_change first, Option.map_some] at run
      have once : ev.stepOn r (some rs) = some ((ev.changesOn r).foldl ResourceState.applySingle rs) := by
        rw [stepOn_change first, Option.map_some]
      exact (ih others run).trans (stepOn_parentId first once)

end Event

namespace Engine

variable {e e' : Engine}

/-- No write changes the parent of a resource that stays. -/
theorem Wrote.parentId {records : List Event} (admits : e.Admits records) (wrote : e.Wrote e' records) {r : Ulid}
    {rs rs' : ResourceState} (before : e.store.getResource r = some rs) (after : e'.store.getResource r = some rs') :
    rs'.parentId = rs.parentId := by
  rw [wrote.table, before] at after
  rcases admits.kinds with ⟨id, parentId, name, capacity, bufferAfter, rfl, passed⟩ | ⟨id, _, rfl, _⟩ | changes
  · have apart : id ≠ r := by
      rintro rfl
      rw [(checkCreate_ok passed).2.1] at before
      cases before
    change (if id = r then _ else some rs) = some rs' at after
    rw [if_neg apart] at after
    cases after
    rfl
  · change (if id = r then none else some rs) = some rs' at after
    split at after
    · cases after
    · cases after
      rfl
  · exact Event.foldl_stepOn_parentId changes after

/-- A resource is there after a write if it was before, or if the write created it. -/
theorem Wrote.present {records : List Event} (admits : e.Admits records) (wrote : e.Wrote e' records) {r : Ulid}
    {rs' : ResourceState} (after : e'.store.getResource r = some rs') :
    (∃ rs, e.store.getResource r = some rs) ∨
      ∃ name capacity bufferAfter, e.checkCreate r rs'.parentId name capacity bufferAfter = .ok () := by
  rw [wrote.table] at after
  rcases admits.kinds with ⟨id, parentId, name, capacity, bufferAfter, rfl, passed⟩ | ⟨id, _, rfl, _⟩ | changes
  · change (if id = r then some _ else _) = some rs' at after
    split at after
    · next same =>
        cases after
        exact .inr ⟨name, capacity, bufferAfter, same ▸ passed⟩
    · exact .inl ⟨rs', after⟩
  · change (if id = r then none else _) = some rs' at after
    split at after
    · cases after
    · exact .inl ⟨rs', after⟩
  · rw [Event.foldl_stepOn r changes] at after
    obtain ⟨rs, present, _⟩ := Option.map_eq_some_iff.mp after
    exact .inl ⟨rs, present⟩

theorem Wrote.shallow (h : e.Healthy) (shallow : e.store.Shallow) {records : List Event} (admits : e.Admits records)
    (wrote : e.Wrote e' records) : e'.store.Shallow := by
  have c := h.consistent
  have c' := wrote.healthy.consistent
  have same : ∀ x rs rs', e.store.getResource x = some rs → e'.store.getResource x = some rs' →
      rs'.parentId = rs.parentId := fun _ _ _ => wrote.parentId admits
  intro r rs' after
  rcases wrote.present admits after with ⟨rs, before⟩ | ⟨name, capacity, bufferAfter, passed⟩
  · obtain ⟨line, lineage, bounded⟩ := shallow r rs before
    obtain ⟨line', lineage', length⟩ := lineage.carried c c' same before after
    exact ⟨line', lineage', length ▸ bounded⟩
  · have linked : e'.store.getParent r = rs'.parentId := by
      rw [c'.parents, after]
      rfl
    cases above : rs'.parentId with
    | none => exact ⟨[], .root (linked.trans above), Nat.zero_le _⟩
    | some p =>
        obtain ⟨_, exists'⟩ := (checkCreate_ok passed).2.2 p above
        obtain ⟨ps, present⟩ := Option.isSome_iff_exists.mp exists'
        obtain ⟨ps', present'⟩ := Option.isSome_iff_exists.mp (c'.parentExists r rs' p after above)
        obtain ⟨line, lineage, _⟩ := shallow p ps present
        obtain ⟨line', lineage', length⟩ := lineage.carried c c' same present present'
        refine ⟨ps' :: line', .under (linked.trans above) present' lineage', ?_⟩
        rw [List.length_cons, length]
        exact lineage.checkDepth_ok (checkCreate_depth passed p above)

theorem gc_shallow (h : e.Healthy) (shallow : e.store.Shallow) (now retentionMs : Ms) :
    (e.gcPastIntervals now retentionMs).store.Shallow := by
  have c := h.consistent
  have c' := (gc_healthy h now retentionMs).consistent
  have same : ∀ x rs rs', e.store.getResource x = some rs →
      (e.gcPastIntervals now retentionMs).store.getResource x = some rs' → rs'.parentId = rs.parentId := by
    intro x rs rs' before after
    rw [gc_getResource h, before] at after
    cases after
    rfl
  intro r rs' after
  have before := after
  rw [gc_getResource h] at before
  obtain ⟨rs, present, _⟩ := Option.map_eq_some_iff.mp before
  obtain ⟨line, lineage, bounded⟩ := shallow r rs present
  obtain ⟨line', lineage', length⟩ := lineage.carried c c' same present after
  exact ⟨line', lineage', length ▸ bounded⟩

theorem next_shallow (h : e.Healthy) (shallow : e.store.Shallow) (move : Move) : (e.next move).store.Shallow := by
  cases move with
  | tick ms => exact shallow
  | op o =>
      exact next_op_invariant (I := fun e => e.store.Shallow) h shallow
        fun _ _ _ h shallow _ admits wrote => wrote.shallow h shallow admits
  | gc now retentionMs => exact gc_shallow h shallow now retentionMs
  | compact order =>
      change (e.compactWal order).store.Shallow
      rw [compactWal_eq h.running]
      exact shallow

/-- The resources of a running engine form a tree. -/
theorem Reachable.wellFormedTree {allowed : Engine → Move → Prop} (reached : Reachable allowed e) :
    e.store.WellFormedTree := by
  have both : e.Healthy ∧ e.store.Shallow := by
    apply reached.invariant (I := fun e => e.Healthy ∧ e.store.Shallow)
    · exact fun clock ttl => ⟨start_healthy clock ttl, fun r rs present => by cases present⟩
    · exact fun _ move holds _ _ => ⟨next_healthy holds.1 move, next_shallow holds.1 holds.2 move⟩
  exact both.1.consistent.wellFormedTree both.2

theorem openingHours_valid : (⟨0, 100⟩ : Span).Valid := by decide

theorem lunch_valid : (⟨40, 50⟩ : Span).Valid := by decide

/-- A desk in a building that has opening hours and closes for lunch. -/
def deskInBuilding : Engine :=
  ((((start 0 1000).next (.op (.createResource 1 none none 1 none))).next
    (.op (.addRule 10 1 ⟨⟨0, 100⟩, openingHours_valid⟩ false))).next
    (.op (.addRule 11 1 ⟨⟨40, 50⟩, lunch_valid⟩ true))).next (.op (.createResource 2 (some 1) none 1 (some 5)))

theorem deskInBuilding_reachable : Reachable (fun _ _ => True) deskInBuilding :=
  .step _ (.step _ (.step _ (.step _ (.start 0 1000) trivial trivial) trivial trivial) trivial trivial) trivial trivial

/-- The desk has the hours of the building. -/
theorem deskInBuilding_reads :
    (∃ free, deskInBuilding.store.computeAvailability 0 2 30 200 none = .ok free) ∧
      ∀ free, deskInBuilding.store.computeAvailability 0 2 30 200 none = .ok free → ∀ t, 30 ≤ t → t < 200 →
        (Covers free t ↔ (⟨2, some 1, none, 1, some 5, []⟩ : ResourceState).FreeUnder
          [⟨1, none, none, 1, none, [⟨10, ⟨0, 100⟩, .nonBlocking⟩, ⟨11, ⟨40, 50⟩, .blocking⟩]⟩] 0 t) := by
  have every := @InMemoryStore.availability_at_every_instant deskInBuilding.store 2
    ⟨2, some 1, none, 1, some 5, []⟩ [⟨1, none, none, 1, none, [⟨10, ⟨0, 100⟩, .nonBlocking⟩, ⟨11, ⟨40, 50⟩, .blocking⟩]⟩]
    deskInBuilding_reachable.wellFormedTree rfl (.under rfl rfl (.root rfl)) 0
  exact ⟨every.1 30 200 (by decide), every.2.1 30 200⟩

end Engine

end Deltat
