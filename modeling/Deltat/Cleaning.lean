import Deltat.Exactness
import Deltat.Hierarchy

/-! # Cleaning up

Garbage collection and the removal of expired holds take allocations off a resource that no read
and no check can meet any more: an allocation that is not live, or one whose turnaround had ended
before the retention. Whatever asks from the retention on is answered as before.
-/

namespace Deltat

open Lib Limits Availability Conflict

namespace ResourceState

/-- The resource without some of its intervals. -/
def without (rs : ResourceState) (drop : Interval → Bool) : ResourceState :=
  { rs with intervals := rs.intervals.filter fun i => !drop i }

/-- What asks about the time from an instant on cannot tell the resources apart. -/
structure AnswersAs (rs rs' : ResourceState) (now low : Ms) : Prop where
  availability : ∀ query : Span, low ≤ query.start → ∀ opens closes,
    availability rs' query opens closes now = availability rs query opens closes now
  schedule : ∀ span : Span, low ≤ span.start → ∀ opens closes ancestorHasSchedule,
    checkRulesAdmit rs' span opens closes ancestorHasSchedule = checkRulesAdmit rs span opens closes ancestorHasSchedule
  conflict : ∀ span : Span, low ≤ span.start → ∀ exclude,
    checkNoConflictExcluding rs' span now exclude = checkNoConflictExcluding rs span now exclude
  batch : ∀ spans : List Span, (∀ span ∈ spans, low ≤ span.start) →
    checkBatchCapacity rs' spans now = checkBatchCapacity rs spans now

/-- Allocations that are not live, or whose turnaround has ended before an instant. -/
def Spent (rs : ResourceState) (now low : Ms) (i : Interval) : Prop :=
  i.kind.isRule = false ∧ (i.kind.live now = true → i.span.end + rs.buffer < low)

section Without

variable {rs : ResourceState} {now low : Ms} {drop : Interval → Bool}

@[simp] theorem without_buffer : (rs.without drop).buffer = rs.buffer := rfl

@[simp] theorem without_capacity : (rs.without drop).capacity = rs.capacity := rfl

/-- A question that no dropped interval meets sees the same intervals. -/
theorem without_overlapping (timeline : rs.Timeline) {query : Span} {p : Interval → Bool}
    (unmet : ∀ i ∈ rs.intervals, drop i = true → p i = true → i.span.end ≤ query.start) :
    ((rs.without drop).overlapping query).filter p = (rs.overlapping query).filter p := by
  have sorted' : (rs.without drop).intervals.Pairwise fun a b => a.span.start ≤ b.span.start := timeline.sorted.filter _
  rw [overlapping_eq timeline.sorted, overlapping_eq sorted']
  simp only [without, List.filter_filter]
  apply List.filter_congr
  intro i inside
  cases dropped : drop i with
  | false => simp
  | true =>
      cases asked : p i with
      | false => simp
      | true =>
          have before := unmet i inside dropped asked
          simp [before]

section Dropped

variable (timeline : rs.Timeline) (spent : ∀ i ∈ rs.intervals, drop i = true → rs.Spent now low i)
include timeline spent

/-- Rules are not dropped. -/
theorem without_rules {query : Span} {p : Interval → Bool} (rules : ∀ i, p i = true → i.kind.isRule = true) :
    ((rs.without drop).overlapping query).filter p = (rs.overlapping query).filter p := by
  apply without_overlapping timeline
  intro i inside dropped asked
  have allocation := (spent i inside dropped).1
  rw [rules i asked] at allocation
  cases allocation

theorem without_ownRuleSpans (query : Span) : ownRuleSpans (rs.without drop) query = ownRuleSpans rs query := by
  have rule : ∀ kind : IntervalKind, kind.isRule = true → ∀ i : Interval, decide (i.kind = kind) = true →
      i.kind.isRule = true := by
    intro kind isRule i same
    rw [of_decide_eq_true same, isRule]
  unfold ownRuleSpans
  simp only [without_rules timeline spent (rule .nonBlocking rfl), without_rules timeline spent (rule .blocking rfl)]

omit timeline in
theorem without_hasNonBlockingRule : (rs.without drop).hasNonBlockingRule = rs.hasNonBlockingRule := by
  unfold hasNonBlockingRule without
  rw [Bool.eq_iff_iff, List.any_eq_true, List.any_eq_true]
  constructor
  · rintro ⟨i, inside, rule⟩
    exact ⟨i, List.mem_of_mem_filter inside, rule⟩
  · rintro ⟨i, inside, rule⟩
    refine ⟨i, List.mem_filter.mpr ⟨inside, ?_⟩, rule⟩
    rw [Bool.not_eq_true']
    apply Bool.eq_false_iff.mpr
    intro dropped
    have allocation := (spent i inside dropped).1
    rw [of_decide_eq_true rule] at allocation
    cases allocation

/-- Whoever looks one buffer back from the instant on meets no dropped allocation. -/
theorem without_live {query : Span} (reach : min (low - rs.buffer) i64Max ≤ query.start) {p : Interval → Bool}
    (live : ∀ i, p i = true → i.kind.live now = true) :
    ((rs.without drop).overlapping query).filter p = (rs.overlapping query).filter p := by
  apply without_overlapping timeline
  intro i inside dropped asked
  have past := (spent i inside dropped).2 (live i asked)
  have upper := (timeline.spans i inside).upper
  lia

theorem without_collectActive {query : Span} (reach : min (low - rs.buffer) i64Max ≤ query.start)
    (exclude : Option Ulid) : collectActiveAllocsWithBuffer (rs.without drop) query now rs.buffer exclude =
      collectActiveAllocsWithBuffer rs query now rs.buffer exclude := by
  unfold collectActiveAllocsWithBuffer
  rw [without_live timeline spent reach fun i asked => (Bool.and_eq_true _ _ ▸ asked).2]

omit timeline spent in
/-- A search that goes one buffer back. -/
theorem back_reaches {start : Ms} (after : low ≤ start) : min (low - rs.buffer) i64Max ≤ max (satSub start rs.buffer) 0 := by
  simp only [satSub]
  lia

theorem without_availability {query : Span} (after : low ≤ query.start) (opens closes : List Span) :
    availability (rs.without drop) query opens closes now = availability rs query opens closes now := by
  let scan : Span := ⟨max (satSub query.start rs.buffer) 0, query.end⟩
  have reach : min (low - rs.buffer) i64Max ≤ scan.start := back_reaches after
  have active := without_live timeline spent reach (p := fun i => i.kind.live now && decide (satAdd i.span.end rs.buffer > query.start))
    fun i asked => (Bool.and_eq_true _ _ ▸ asked).1
  simp only [availability, without_ownRuleSpans timeline spent, without_hasNonBlockingRule spent]
  rw [without_buffer, without_capacity, active]

theorem without_checkRulesAdmit (span : Span) (opens closes : List Span) (ancestorHasSchedule : Bool) :
    checkRulesAdmit (rs.without drop) span opens closes ancestorHasSchedule =
      checkRulesAdmit rs span opens closes ancestorHasSchedule := by
  simp only [checkRulesAdmit, without_ownRuleSpans timeline spent, without_hasNonBlockingRule spent]

theorem without_checkNoConflict {span : Span} (after : low ≤ span.start) (exclude : Option Ulid) :
    checkNoConflictExcluding (rs.without drop) span now exclude = checkNoConflictExcluding rs span now exclude := by
  let search : Span := ⟨max (satSub span.start rs.buffer) 0, satAdd span.end rs.buffer⟩
  have reach : min (low - rs.buffer) i64Max ≤ search.start := back_reaches after
  have found : ∀ p : Interval → Bool, (∀ i, p i = true → i.kind.live now = true) →
      ((rs.without drop).overlapping search).find? p = (rs.overlapping search).find? p := by
    intro p live
    rw [← List.head?_filter, ← List.head?_filter, without_live timeline spent reach live]
  have several := without_collectActive timeline spent reach exclude
  unfold checkNoConflictExcluding
  simp only
  rw [without_buffer, without_capacity, found _ fun i asked => ?_, several]
  simp only [Bool.and_eq_true] at asked
  exact asked.1.2

theorem without_checkBatchCapacity {spans : List Span} (after : ∀ span ∈ spans, low ≤ span.start) :
    checkBatchCapacity (rs.without drop) spans now = checkBatchCapacity rs spans now := by
  unfold checkBatchCapacity
  rw [without_buffer, without_capacity]
  cases first : (spans.map (·.start)).min? with
  | none => rfl
  | some lo =>
      cases last : (spans.map fun s => satAdd s.end rs.buffer).max? with
      | none => simp only [last]
      | some hi =>
          have reach : min (low - rs.buffer) i64Max ≤ max (satSub lo rs.buffer) 0 := by
            apply back_reaches
            obtain ⟨span, inside, same⟩ := List.mem_map.mp (List.min?_mem first)
            exact same ▸ after span inside
          have active : collectActiveAllocsWithBuffer (rs.without drop) ⟨max (satSub lo rs.buffer) 0, hi⟩ now rs.buffer none =
              collectActiveAllocsWithBuffer rs ⟨max (satSub lo rs.buffer) 0, hi⟩ now rs.buffer none :=
            without_collectActive timeline spent reach none
          simp only [last]
          rw [active]

/-- Nobody who asks from the instant on can tell that spent allocations are gone. -/
theorem without_answersAs : rs.AnswersAs (rs.without drop) now low where
  availability _ after := without_availability timeline spent after
  schedule span _ := without_checkRulesAdmit timeline spent span
  conflict _ after := without_checkNoConflict timeline spent after
  batch _ after := without_checkBatchCapacity timeline spent after

end Dropped

end Without

/-- Expired holds are spent, whenever they end. -/
theorem spent_of_expired {rs : ResourceState} {now low : Ms} {i : Interval} (hold : i.kind.isHold = true)
    (expired : i.kind.live now = false) : rs.Spent now low i := by
  refine ⟨?_, fun live => by rw [expired] at live; cases live⟩
  rcases i with ⟨id, span, kind⟩
  cases kind <;> first | rfl | cases hold

end ResourceState

namespace Engine

variable {s : InMemoryStore} {now retentionMs : Ms}

/-- What the collector drops had its turnaround end before the retention. -/
theorem dominated_past {buffer : Ms} {i : Interval} (dropped : dominated now (satSub now retentionMs) buffer i = true) :
    i.span.end + buffer < now - retentionMs := by
  have past : satAdd i.span.end buffer < satSub now retentionMs := by
    rcases i with ⟨id, span, kind⟩
    cases kind with
    | booking label => exact of_decide_eq_true dropped
    | hold expiresAt => exact of_decide_eq_true (Bool.and_eq_true _ _ ▸ dropped).2
    | nonBlocking | blocking => cases dropped
  simp only [satAdd, satSub] at past
  lia

theorem dominated_spent {rs : ResourceState} {i : Interval}
    (dropped : dominated now (satSub now retentionMs) rs.buffer i = true) : rs.Spent now (now - retentionMs) i := by
  refine ⟨?_, fun _ => dominated_past dropped⟩
  rcases i with ⟨id, span, kind⟩
  cases kind with
  | booking | hold => rfl
  | nonBlocking | blocking => cases dropped

/-- The collector keeps live holds. -/
theorem live_hold_kept {cutoff buffer : Ms} {i : Interval} (hold : i.kind.isHold = true) (live : i.kind.live now = true) :
    dominated now cutoff buffer i = false := by
  rcases i with ⟨id, span, kind⟩
  cases kind with
  | hold expiresAt =>
      simp only [IntervalKind.live, Bool.not_eq_true'] at live
      simp only [dominated, live, Bool.false_and]
  | booking | nonBlocking | blocking => cases hold

section Collecting

variable {cutoff : Ms}

theorem foldl_gcResource_getResource {rids : List Ulid} (nodup : rids.Nodup) (s : InMemoryStore) (x : Ulid) :
    (rids.foldl (gcResource now cutoff) s).getResource x =
      if x ∈ rids then (s.getResource x).map (·.collected now cutoff) else s.getResource x := by
  induction rids generalizing s with
  | nil => rfl
  | cons r rest ih =>
      obtain ⟨notAgain, nodup⟩ := List.nodup_cons.mp nodup
      rw [List.foldl_cons, ih nodup, gcResource_getResource]
      by_cases same : x = r
      · subst same
        simp [notAgain]
      · simp [same]

/-- The ids that the collector drops from a resource. -/
def droppedIds (s : InMemoryStore) (now cutoff : Ms) (r : Ulid) : List Ulid :=
  (s.getResource r).elim [] fun rs => (rs.intervals.filter (dominated now cutoff rs.buffer)).map (·.id)

theorem gcResource_unmaps (s : InMemoryStore) (r x : Ulid) : (gcResource now cutoff s r).getResourceForEntity x =
    if x ∈ droppedIds s now cutoff r then none else s.getResourceForEntity x := by
  cases present : s.getResource r with
  | none => simp [gcResource, droppedIds, present]
  | some rs =>
      rw [gcResource_getResourceForEntity present, droppedIds, present]
      rfl

/-- The collector unmaps what it drops, resource by resource. -/
theorem foldl_gcResource_unmaps {rids : List Ulid} (nodup : rids.Nodup) (s : InMemoryStore) (x : Ulid) :
    (rids.foldl (gcResource now cutoff) s).getResourceForEntity x =
      if x ∈ rids.flatMap (droppedIds s now cutoff) then none else s.getResourceForEntity x := by
  induction rids generalizing s with
  | nil => rfl
  | cons r rest ih =>
      obtain ⟨notAgain, nodup⟩ := List.nodup_cons.mp nodup
      have later : rest.flatMap (droppedIds (gcResource now cutoff s r) now cutoff) =
          rest.flatMap (droppedIds s now cutoff) := by
        apply List.flatMap_congr
        intro q inside
        have apart : q ≠ r := fun same => notAgain (same ▸ inside)
        rw [droppedIds, gcResource_getResource, if_neg apart]
        rfl
      rw [List.foldl_cons, ih nodup, later, gcResource_unmaps, List.flatMap_cons]
      by_cases here : x ∈ droppedIds s now cutoff r
      · rw [if_pos here, if_pos (List.mem_append_left _ here), ite_self]
      · rw [if_neg here]
        exact if_congr (by rw [List.mem_append, or_iff_right here]) rfl rfl

end Collecting

/-- The store that the collector leaves when it finds these resources unlocked. -/
def collectedStore (s : InMemoryStore) (now retentionMs : Ms) (unlocked : List Ulid) : InMemoryStore :=
  unlocked.foldl (gcResource now (satSub now retentionMs)) s

/-- With no lock in its way the collector goes through every resource. -/
theorem gcPastIntervals_collects (e : Engine) (now retentionMs : Ms) :
    (e.gcPastIntervals now retentionMs).store = collectedStore e.store now retentionMs e.store.resourceIds := rfl

/-- An id whose interval was taken off a resource. -/
def TakenOff (s after : InMemoryStore) (x : Ulid) : Prop :=
  ∃ r rs rs', s.getResource r = some rs ∧ after.getResource r = some rs' ∧ ∃ i ∈ rs.intervals, i ∉ rs'.intervals ∧ i.id = x

/-- Whatever asks of the resource from the retention on is answered as before, and the rules, the live holds and the
    allocations whose turnaround reaches the retention are still there. -/
structure KeptFor (rs rs' : ResourceState) (now retentionMs : Ms) : Prop where
  answers : rs.AnswersAs rs' now (now - retentionMs)
  rules : ∀ i ∈ rs.intervals, i.kind.isRule = true → i ∈ rs'.intervals
  liveHolds : ∀ i ∈ rs.intervals, i.kind.isHold = true → i.kind.live now = true → i ∈ rs'.intervals
  recent : ∀ i ∈ rs.intervals, now - retentionMs ≤ i.span.end + rs.buffer → i ∈ rs'.intervals

theorem collected_keptFor {rs : ResourceState} (timeline : rs.Timeline) (now retentionMs : Ms) :
    KeptFor rs (rs.collected now (satSub now retentionMs)) now retentionMs := by
  have kept : ∀ i ∈ rs.intervals, dominated now (satSub now retentionMs) rs.buffer i = false →
      i ∈ (rs.collected now (satSub now retentionMs)).intervals :=
    fun i inside still => List.mem_filter.mpr ⟨inside, by rw [still]; rfl⟩
  constructor
  case answers => exact ResourceState.without_answersAs timeline fun i _ dropped => dominated_spent dropped
  case rules =>
    intro i inside rule
    apply kept i inside
    apply Bool.eq_false_iff.mpr
    intro dropped
    rw [(dominated_spent dropped).1] at rule
    cases rule
  case liveHolds => exact fun i inside hold live => kept i inside (live_hold_kept hold live)
  case recent =>
    intro i inside reaches
    apply kept i inside
    apply Bool.eq_false_iff.mpr
    exact fun dropped => absurd (dominated_past dropped) (Int.not_lt.mpr reaches)

theorem keptFor_refl (rs : ResourceState) (now retentionMs : Ms) : KeptFor rs rs now retentionMs where
  answers := ⟨fun _ _ _ _ => rfl, fun _ _ _ _ _ => rfl, fun _ _ _ => rfl, fun _ _ => rfl⟩
  rules _ inside _ := inside
  liveHolds _ inside _ _ := inside
  recent _ inside _ := inside

theorem takenOff_iff {unlocked : List Ulid} (nodup : unlocked.Nodup) (now retentionMs : Ms) (x : Ulid) :
    TakenOff s (collectedStore s now retentionMs unlocked) x ↔
      x ∈ unlocked.flatMap (droppedIds s now (satSub now retentionMs)) := by
  have table : ∀ x, (unlocked.foldl (gcResource now (satSub now retentionMs)) s).getResource x = _ :=
    foldl_gcResource_getResource nodup s
  rw [List.mem_flatMap]
  constructor
  · rintro ⟨r, rs, rs', present, after, i, inside, gone, rfl⟩
    rw [collectedStore, table, present] at after
    split at after
    · next member =>
        cases after
        refine ⟨r, member, ?_⟩
        rw [droppedIds, present]
        refine List.mem_map_of_mem (List.mem_filter.mpr ⟨inside, ?_⟩)
        by_contra still
        exact gone (List.mem_filter.mpr ⟨inside, by rw [Bool.not_eq_true] at still; rw [still]; rfl⟩)
    · cases after
      exact absurd inside gone
  · rintro ⟨r, member, dropped⟩
    cases present : s.getResource r with
    | none =>
        rw [droppedIds, present] at dropped
        cases dropped
    | some rs =>
        rw [droppedIds, present] at dropped
        obtain ⟨i, inside, rfl⟩ := List.mem_map.mp dropped
        obtain ⟨inside, dominates⟩ := List.mem_filter.mp inside
        refine ⟨r, rs, rs.collected now (satSub now retentionMs), present, ?_, i, inside, ?_, rfl⟩
        · rw [collectedStore, table, if_pos member, present]
          rfl
        · intro still
          have kept := (List.mem_filter.mp still).2
          rw [dominates] at kept
          cases kept

/-- Cleaning up is invisible: collecting the resources that are not locked, and removing any expired holds, leaves
    the answers from the retention on. The collector unmaps exactly what it takes off. -/
theorem cleaning_invisible (timelines : ∀ r rs, s.getResource r = some rs → rs.Timeline) (now retentionMs : Ms)
    {unlocked : List Ulid} (listed : unlocked.Sublist s.resourceIds) :
    (∀ r rs, s.getResource r = some rs →
      (∃ rs', (collectedStore s now retentionMs unlocked).getResource r = some rs' ∧ KeptFor rs rs' now retentionMs) ∧
        ∀ drop : Interval → Bool, (∀ i ∈ rs.intervals, drop i = true → i.kind.isHold = true ∧ i.kind.live now = false) →
          rs.AnswersAs (rs.without drop) now (now - retentionMs)) ∧
      ∀ x, (TakenOff s (collectedStore s now retentionMs unlocked) x →
          (collectedStore s now retentionMs unlocked).getResourceForEntity x = none) ∧
        (¬ TakenOff s (collectedStore s now retentionMs unlocked) x →
          (collectedStore s now retentionMs unlocked).getResourceForEntity x = s.getResourceForEntity x) := by
  have nodup : unlocked.Nodup := (resourceIds_nodup s).sublist listed
  constructor
  · intro r rs present
    have timeline := timelines r rs present
    constructor
    · rw [collectedStore, foldl_gcResource_getResource nodup, present]
      split
      · exact ⟨_, rfl, collected_keptFor timeline now retentionMs⟩
      · exact ⟨rs, rfl, keptFor_refl rs now retentionMs⟩
    · intro drop expired
      exact ResourceState.without_answersAs timeline fun i inside dropped =>
        ResourceState.spent_of_expired (expired i inside dropped).1 (expired i inside dropped).2
  · intro x
    rw [takenOff_iff nodup, collectedStore, foldl_gcResource_unmaps nodup]
    exact ⟨fun gone => if_pos gone, fun still => if_neg still⟩

/-- The collector on a desk in a building. -/
theorem desk_cleaning_invisible : ∃ rs rs', deskInBuilding.store.getResource 2 = some rs ∧
    (collectedStore deskInBuilding.store 1000 100 [2]).getResource 2 = some rs' ∧ KeptFor rs rs' 1000 100 := by
  have tree := deskInBuilding_reachable.wellFormedTree
  have listed : ([2] : List Ulid).Sublist deskInBuilding.store.resourceIds := by decide
  have present : (deskInBuilding.store.getResource 2).isSome := by decide
  obtain ⟨rs, found⟩ := Option.isSome_iff_exists.mp present
  obtain ⟨rs', after, kept⟩ := ((cleaning_invisible tree.timelines 1000 100 listed).1 2 rs found).1
  exact ⟨rs, rs', found, after, kept⟩

end Engine

end Deltat
