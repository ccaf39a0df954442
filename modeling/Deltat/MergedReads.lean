import Deltat.FreeRuns
import Deltat.Hierarchy
import Deltat.Selects

/-! # Reads over several resources

A read over a list of resources answers for each of them once. A merged read is decided instant
by instant by how many of the listed resources are free, since runs with gaps between them are
told by what they cover.
-/

namespace Deltat

open Lib Limits Availability

/-! ## Runs -/

theorem Separate.starts {s : Span} {rest : List Span} (separate : Separate (s :: rest)) {t : Ms} (covered : Covers rest t) :
    s.end < t := by
  obtain ⟨u, inside, started, _⟩ := covered
  exact ((List.pairwise_cons.mp separate.gaps).1 u inside).trans_le started

theorem Separate.tail {s : Span} {rest : List Span} (separate : Separate (s :: rest)) : Separate rest :=
  ⟨fun u inside => separate.proper u (List.mem_cons_of_mem _ inside), separate.gaps.of_cons⟩

/-- The first of several runs is told by what they cover. -/
theorem Separate.head_start_le {s u : Span} {rest others : List Span} (first : Separate (s :: rest))
    (second : Separate (u :: others)) (same : ∀ t, Covers (s :: rest) t → Covers (u :: others) t) : u.start ≤ s.start := by
  have positive := first.proper s List.mem_cons_self
  have here := second.proper u List.mem_cons_self
  rcases covers_cons.mp (same s.start ⟨s, List.mem_cons_self, le_rfl, positive⟩) with now | later
  · exact now.1
  · exact here.le.trans (second.starts later).le

theorem Separate.head_end_le {s u : Span} {rest others : List Span} (first : Separate (s :: rest))
    (same : ∀ t, Covers (u :: others) t → Covers (s :: rest) t) (start : u.start ≤ s.start) :
    u.end ≤ s.end := by
  have positive := first.proper s List.mem_cons_self
  by_contra longer
  have covered : Covers (u :: others) s.end := ⟨u, List.mem_cons_self, by lia, by lia⟩
  rcases covers_cons.mp (same s.end covered) with now | later
  · exact absurd now.2 (lt_irrefl _)
  · exact absurd (first.starts later) (lt_irrefl _)

theorem Separate.eq {xs ys : List Span} (first : Separate xs) (second : Separate ys)
    (same : ∀ t, Covers xs t ↔ Covers ys t) : xs = ys := by
  induction xs generalizing ys with
  | nil =>
      cases ys with
      | nil => rfl
      | cons u others =>
          have positive := second.proper u List.mem_cons_self
          exact absurd ((same u.start).mpr ⟨u, List.mem_cons_self, le_rfl, positive⟩) covers_nil
  | cons s rest ih =>
      cases ys with
      | nil =>
          have positive := first.proper s List.mem_cons_self
          exact absurd ((same s.start).mp ⟨s, List.mem_cons_self, le_rfl, positive⟩) covers_nil
      | cons u others =>
          have start := le_antisymm (second.head_start_le first fun t => (same t).mpr)
            (first.head_start_le second fun t => (same t).mp)
          have stop := le_antisymm (second.head_end_le (fun t => (same t).mp) start.le)
            (first.head_end_le (fun t => (same t).mpr) start.ge)
          have equal : s = u := by
            cases s
            cases u
            simp_all
          subst equal
          congr 1
          apply ih first.tail second.tail
          intro t
          constructor
          · intro covered
            have after := first.starts covered
            exact (covers_cons.mp ((same t).mp (covers_cons.mpr (.inr covered)))).resolve_left fun now => by lia
          · intro covered
            have after := second.starts covered
            exact (covers_cons.mp ((same t).mpr (covers_cons.mpr (.inr covered)))).resolve_left fun now => by lia

namespace InMemoryStore

variable {s : InMemoryStore} {now : Ms}

/-! ## The sweep of a merged read -/

theorem sweepSegments_ordered {n : Nat} {spans : List Span} : Ordered (sweepSegments n spans) := by
  have byTime := Sweep.before_byTime
    (List.pairwise_insertionSort Sweep.Before (Sweep.endpoints (spans.map fun a => (a.start, a.end))))
  exact List.pairwise_map.mpr (Sweep.saturated_ordered byTime 0 none)

theorem sweepSegments_proper {n : Nat} {spans : List Span} : ∀ s ∈ sweepSegments n spans, s.start < s.end := by
  intro s inside
  obtain ⟨pair, found, rfl⟩ := List.mem_map.mp inside
  exact Sweep.saturated_proper _ _ _ pair found

theorem sweepSegments_covers {n : Nat} {spans : List Span} (positive : 0 < n) (proper : ∀ a ∈ spans, a.start < a.end)
    (t : Ms) : Covers (sweepSegments n spans) t ↔ n ≤ occupancy spans t := by
  have swept := Sweep.covered_saturated_endpoints (Int.natCast_pos.mpr positive)
    (List.forall_mem_map.mpr proper : ∀ s ∈ spans.map fun a => (a.start, a.end), s.1 < s.2) t
  rw [sweep_occupancy, Nat.cast_le] at swept
  rw [← swept]
  simp only [Covers, sweepSegments, List.mem_map, Sweep.Covered]
  constructor
  · rintro ⟨_, ⟨s, inside, rfl⟩, holds⟩
    exact ⟨s, inside, holds⟩
  · rintro ⟨s, inside, holds⟩
    exact ⟨_, ⟨s, inside, rfl⟩, holds⟩

/-- When the same instants see enough spans, the runs are the same. -/
theorem sweepSegments_same {n : Nat} {spans others : List Span} (positive : 0 < n)
    (proper : ∀ a ∈ spans, a.start < a.end) (proper' : ∀ a ∈ others, a.start < a.end)
    (same : ∀ t, n ≤ occupancy spans t ↔ n ≤ occupancy others t) :
    mergeOverlapping (sweepSegments n spans) = mergeOverlapping (sweepSegments n others) := by
  apply Separate.eq (mergeOverlapping_separate sweepSegments_ordered sweepSegments_proper)
    (mergeOverlapping_separate sweepSegments_ordered sweepSegments_proper)
  intro t
  rw [mergeOverlapping_covers sweepSegments_ordered, mergeOverlapping_covers sweepSegments_ordered,
    sweepSegments_covers positive proper, sweepSegments_covers positive proper']
  exact same t

/-- Runs contain an instant at most once. -/
theorem occupancy_le_one {spans : List Span} (separate : Separate spans) (t : Ms) : occupancy spans t ≤ 1 := by
  induction spans with
  | nil => exact Nat.zero_le _
  | cons u rest ih =>
      have later := ih separate.tail
      rw [occupancy, List.countP_cons, ← occupancy]
      split
      · next here =>
          simp only [Bool.and_eq_true, decide_eq_true_eq] at here
          have none' : ¬ 0 < occupancy rest t := by
            intro some'
            have after := separate.starts (covers_iff_occupancy.mpr some')
            lia
          lia
      · exact later

/-- Over several resources, the spans at an instant are as many as the resources free at it. -/
theorem occupancy_flatten {runs : List (List Span)} (separate : ∀ spans ∈ runs, Separate spans) (t : Ms) :
    occupancy runs.flatten t = runs.countP fun spans => decide (0 < occupancy spans t) := by
  induction runs with
  | nil => rfl
  | cons spans rest ih =>
      obtain ⟨here, later⟩ := List.forall_mem_cons.mp separate
      have joined : occupancy (spans ++ rest.flatten) t = occupancy spans t + occupancy rest.flatten t :=
        List.countP_append ..
      have once := occupancy_le_one here t
      rw [List.flatten_cons, joined, ih later, List.countP_cons, Nat.add_comm]
      split
      · next free =>
          have free := of_decide_eq_true free
          lia
      · next busy =>
          have busy : ¬ 0 < occupancy spans t := fun free => busy (decide_eq_true free)
          lia

/-! ## What a read answers -/

theorem inherited_proper (query : Span) {line : List ResourceState} (orderly : ∀ rs ∈ line, rs.Orderly)
    (proper : query.start < query.end) (rules : InheritedRules)
    (opens : ∀ span ∈ rules.nonBlocking, query.start ≤ span.start ∧ span.start < span.end ∧ span.end ≤ query.end)
    (closes : ∀ span ∈ rules.blocking, span.start < span.end) :
    (∀ span ∈ (line.foldl (inheritFrom query) rules).nonBlocking,
      query.start ≤ span.start ∧ span.start < span.end ∧ span.end ≤ query.end) ∧
      ∀ span ∈ (line.foldl (inheritFrom query) rules).blocking, span.start < span.end := by
  induction line generalizing rules with
  | nil => exact ⟨opens, closes⟩
  | cons parent line ih =>
      obtain ⟨here, higher⟩ := List.forall_mem_cons.mp orderly
      have clamped := fun kind => ResourceState.clamped_proper here proper kind
      apply ih higher
      · intro span inside
        simp only [inheritFrom] at inside
        split at inside
        · exact opens span inside
        · rcases List.mem_append.mp inside with before | now
          · exact opens span before
          · obtain ⟨i, _, same⟩ := List.mem_map.mp now
            refine ⟨?_, clamped .nonBlocking span now, ?_⟩ <;> rw [← same]
            · exact le_max_right _ _
            · exact min_le_right _ _
      · intro span inside
        rcases List.mem_append.mp inside with before | now
        · exact closes span before
        · exact clamped .blocking span now

/-- A read of a tree answers with runs inside its window. -/
theorem computeAvailability_runs (tree : s.WellFormedTree) {r : Ulid} {first last : Ms} {free : List Span}
    (read : s.computeAvailability now r first last none = .ok free) :
    Separate free ∧ ∀ span ∈ free, clampTimestamp first ≤ span.start ∧ span.end ≤ clampTimestamp last := by
  cases present : s.getResource r with
  | none =>
      have nothing : free = [] := by
        simp only [computeAvailability, present] at read
        split at read
        · cases read; rfl
        · split at read
          · cases read
          · cases read; rfl
      subst nothing
      exact ⟨.nil, fun span inside => (List.not_mem_nil inside).elim⟩
  | some rs =>
      obtain ⟨line, lineage, shallow⟩ := tree.ancestors r rs present
      rw [computeAvailability_ok present lineage shallow (accepted_width read)] at read
      split at read
      · cases read
        exact ⟨.nil, fun span inside => (List.not_mem_nil inside).elim⟩
      · next wide =>
          cases read
          have proper : clampTimestamp first < clampTimestamp last := Int.not_le.mp wide
          have orderly : ∀ each ∈ line, each.Orderly := by
            intro each inside
            obtain ⟨p, here⟩ := lineage.present each inside
            exact (tree.timelines p each here).orderly
          obtain ⟨opens, closes⟩ := inherited_proper ⟨clampTimestamp first, clampTimestamp last⟩ orderly proper
            ⟨[], [], false⟩ (fun span inside => (List.not_mem_nil inside).elim)
            (fun span inside => (List.not_mem_nil inside).elim)
          have sorted : ∀ {spans : List Span} {span : Span}, span ∈ sortByStart spans → span ∈ spans :=
            fun inside => (sortByStart_perm _).mem_iff.mp inside
          have timeline := (tree.timelines r rs present).orderly
          exact ⟨ResourceState.availability_separate timeline proper (fun span inside => (opens span (sorted inside)).2.1)
              (fun span inside => closes span (sorted inside)),
            ResourceState.availability_within timeline proper (fun span inside => opens span (sorted inside))
              (fun span inside => closes span (sorted inside))⟩

/-! ## Several resources -/

section Multi

variable {α : Type} {read : Ulid → Except EngineError (List α)} {ids seen : List Ulid} {rows : List α}

theorem readEach_cons (read : Ulid → Except EngineError (List α)) (seen : List Ulid) (rid : Ulid) (rest : List Ulid) :
    readEach read seen (rid :: rest) = if rid ∈ seen then readEach read seen rest else do
      let rows ← read rid
      let others ← readEach read (rid :: seen) rest
      return rows ++ others := by
  rw [readEach]
  simp only [List.contains_iff_mem]

theorem readEach_reads (ok : readEach read seen ids = .ok rows) : ∀ r ∈ ids, r ∉ seen → ∃ own, read r = .ok own := by
  induction ids generalizing seen rows with
  | nil => exact fun r inside => (List.not_mem_nil inside).elim
  | cons first rest ih =>
      intro r inside fresh
      rw [readEach_cons] at ok
      split at ok
      · next before =>
          have later : r ∈ rest := (List.mem_cons.mp inside).resolve_left fun same => fresh (same ▸ before)
          exact ih ok r later fresh
      · obtain ⟨own, here, ok⟩ := Outcome.bind_ok.mp ok
        obtain ⟨others, there, _⟩ := Outcome.bind_ok.mp ok
        by_cases same : r = first
        · exact ⟨own, same ▸ here⟩
        · have later := (List.mem_cons.mp inside).resolve_left same
          exact ih there r later (List.not_mem_cons_of_ne_of_not_mem same fresh)

theorem readEach_succeeds (reads : ∀ r ∈ ids, ∃ own, read r = .ok own) : ∃ rows, readEach read seen ids = .ok rows := by
  induction ids generalizing seen with
  | nil => exact ⟨[], rfl⟩
  | cons first rest ih =>
      obtain ⟨⟨own, here⟩, later⟩ := List.forall_mem_cons.mp reads
      rw [readEach_cons]
      split
      · exact ih later
      · obtain ⟨others, there⟩ := @ih (first :: seen) later
        rw [here]
        exact ⟨own ++ others, Outcome.bind_ok.mpr ⟨own, rfl, Outcome.bind_ok.mpr ⟨others, there, rfl⟩⟩⟩

/-- Each resource contributes its rows once. -/
theorem readEach_count [BEq α] [LawfulBEq α] {home : α → Ulid}
    (belongs : ∀ r own, read r = .ok own → ∀ b ∈ own, home b = r) (ok : readEach read seen ids = .ok rows) (b : α) :
    rows.count b = if home b ∈ ids ∧ home b ∉ seen then ((read (home b)).toOption.getD []).count b else 0 := by
  induction ids generalizing seen rows with
  | nil =>
      cases ok
      simp
  | cons first rest ih =>
      rw [readEach_cons] at ok
      split at ok
      · next before =>
          rw [ih ok]
          apply if_congr _ rfl rfl
          rw [List.mem_cons]
          refine ⟨fun both => ⟨.inr both.1, both.2⟩, fun both => ⟨both.1.resolve_left fun same => ?_, both.2⟩⟩
          exact both.2 (same ▸ before)
      · next fresh =>
          obtain ⟨own, here, ok⟩ := Outcome.bind_ok.mp ok
          obtain ⟨others, there, same⟩ := Outcome.bind_ok.mp ok
          cases same
          rw [List.count_append, ih there]
          by_cases at' : home b = first
          · have elsewhere : ¬ (home b ∈ rest ∧ home b ∉ first :: seen) := fun both => both.2 (at' ▸ List.mem_cons_self)
            rw [if_neg elsewhere, if_pos ⟨at' ▸ List.mem_cons_self, at' ▸ fresh⟩, at', here]
            rfl
          · have absent : own.count b = 0 := List.count_eq_zero.mpr fun inside => at' (belongs first own here b inside)
            rw [absent, Nat.zero_add]
            apply if_congr _ rfl rfl
            simp [at']

theorem readMulti_count [BEq α] [LawfulBEq α] {home : α → Ulid}
    (belongs : ∀ r own, read r = .ok own → ∀ b ∈ own, home b = r) (ok : readMulti read ids = .ok rows) (b : α) :
    rows.count b = if home b ∈ ids then ((read (home b)).toOption.getD []).count b else 0 := by
  unfold readMulti at ok
  split at ok
  · cases ok
  · simpa using readEach_count belongs ok b

/-- Whoever reads fewer resources succeeds too. -/
theorem readMulti_subset {others : List Ulid} (ok : readMulti read ids = .ok rows) (fewer : others.length ≤ ids.length)
    (inside : others ⊆ ids) : ∃ rows, readMulti read others = .ok rows := by
  unfold readMulti at ok ⊢
  split at ok
  · cases ok
  · next small =>
      rw [if_neg fun large => small (Nat.lt_of_lt_of_le large fewer)]
      exact readEach_succeeds fun r listed => readEach_reads ok r (inside listed) List.not_mem_nil

end Multi

/-! ## A merged read -/

/-- The free time of a resource, where it can be read. -/
def freeOf (s : InMemoryStore) (now first last : Ms) (r : Ulid) : List Span :=
  (s.computeAvailability now r first last none).toOption.getD []

theorem mapM_freeOf {ids : List Ulid} {first last : Ms} {spans : List (List Span)}
    (reads : ids.mapM (s.computeAvailability now · first last none) = .ok spans) :
    spans = ids.map (s.freeOf now first last) := by
  have related := Outcome.mapM_ok.mp reads
  clear reads
  induction related with
  | nil => rfl
  | cons here _ ih => rw [List.map_cons, ← ih, freeOf, here]; rfl

theorem mapM_reads {ids : List Ulid} {first last : Ms}
    (reads : ∀ r ∈ ids, ∃ free, s.computeAvailability now r first last none = .ok free) :
    ids.mapM (s.computeAvailability now · first last none) = .ok (ids.map (s.freeOf now first last)) := by
  apply Outcome.mapM_ok.mpr
  induction ids with
  | nil => exact .nil
  | cons r rest ih =>
      obtain ⟨⟨free, here⟩, later⟩ := List.forall_mem_cons.mp reads
      refine .cons ?_ (ih later)
      rw [here, freeOf, here]
      rfl

/-- The spans that have the least length. -/
def longEnough (shortest : Option Ms) (spans : List Span) : List Span :=
  shortest.elim spans fun d => spans.filter fun span => decide (span.durationMs ≥ d)

/-- The ways in which a merged read is answered. -/
inductive MergedRead (s : InMemoryStore) (now : Ms) (ids : List Ulid) (first last : Ms) (n : Nat) (shortest : Option Ms) :
    List Span → Prop where
  | closed (closed : last ≤ first) : MergedRead s now ids first last n shortest []
  | idle (wide : first < last) (narrow : satSub last first ≤ maxQueryWindowMs) (few : ids.length ≤ maxInClauseIds)
      (idle : ids = [] ∨ n = 0 ∨ ids.length < n) : MergedRead s now ids first last n shortest []
  | merged (wide : first < last) (narrow : satSub last first ≤ maxQueryWindowMs) (few : ids.length ≤ maxInClauseIds)
      (positive : 0 < n) (enough : n ≤ ids.length)
      (reads : ∀ r ∈ ids, ∃ free, s.computeAvailability now r first last none = .ok free) :
      MergedRead s now ids first last n shortest
        (longEnough shortest (mergeOverlapping (sweepSegments n (ids.map (s.freeOf now first last)).flatten)))

theorem computeMulti_merged {ids : List Ulid} {first last : Ms} {n : Nat} {shortest : Option Ms} {rows : List Span} :
    s.computeMultiAvailability now ids first last n shortest = .ok rows ↔
      MergedRead s now ids first last n shortest rows := by
  constructor
  · intro ok
    unfold computeMultiAvailability at ok
    split at ok
    · next closed =>
        cases ok
        exact .closed closed
    · next wide =>
        split at ok
        · cases ok
        · next narrow =>
            split at ok
            · cases ok
            · next few =>
                have few := Nat.not_lt.mp few
                split at ok
                · next idle =>
                    cases ok
                    exact .idle (Int.not_le.mp wide) (Int.not_lt.mp narrow) few (idle.imp_left List.isEmpty_iff.mp)
                · next busy =>
                    simp only [not_or] at busy
                    obtain ⟨spans, read, ok⟩ := Outcome.bind_ok.mp ok
                    cases mapM_freeOf read
                    have merges := @MergedRead.merged s now ids first last n shortest (Int.not_le.mp wide)
                      (Int.not_lt.mp narrow) few (Nat.pos_of_ne_zero busy.2.1) (Nat.not_lt.mp busy.2.2) fun r listed => by
                        obtain ⟨free, _, here⟩ := Outcome.mapM_ok_mem read listed
                        exact ⟨free, here⟩
                    cases shortest <;> cases ok <;> exact merges
  · intro merges
    unfold computeMultiAvailability
    cases merges with
    | closed closed => rw [if_pos closed]
    | idle wide narrow few idle =>
        rw [if_neg (Int.not_le.mpr wide), if_neg (Int.not_lt.mpr narrow), if_neg (Nat.not_lt.mpr few),
          if_pos (idle.imp_left List.isEmpty_iff.mpr)]
    | merged wide narrow few positive enough reads =>
        have some' : ids ≠ [] := List.ne_nil_of_length_pos (positive.trans_le enough)
        rw [if_neg (Int.not_le.mpr wide), if_neg (Int.not_lt.mpr narrow), if_neg (Nat.not_lt.mpr few), if_neg,
          mapM_reads reads]
        · cases shortest <;> rfl
        · rintro (empty | zero | many)
          · exact some' (List.isEmpty_iff.mp empty)
          · exact positive.ne' zero
          · exact Nat.not_lt.mpr enough many

theorem occupancy_reads (tree : s.WellFormedTree) {ids : List Ulid} {first last : Ms}
    (reads : ∀ r ∈ ids, ∃ free, s.computeAvailability now r first last none = .ok free) (t : Ms) :
    occupancy (ids.map (s.freeOf now first last)).flatten t =
      ids.countP fun r => decide (0 < occupancy (s.freeOf now first last r) t) := by
  rw [occupancy_flatten, List.countP_map]
  · rfl
  · intro spans inside
    obtain ⟨r, listed, rfl⟩ := List.mem_map.mp inside
    obtain ⟨free, read⟩ := reads r listed
    have separate := (computeAvailability_runs tree read).1
    rw [freeOf, read]
    exact separate

theorem reads_proper (tree : s.WellFormedTree) {ids : List Ulid} {first last : Ms}
    (reads : ∀ r ∈ ids, ∃ free, s.computeAvailability now r first last none = .ok free) :
    ∀ a ∈ (ids.map (s.freeOf now first last)).flatten,
      a.start < a.end ∧ clampTimestamp first ≤ a.start ∧ a.end ≤ clampTimestamp last := by
  intro a found
  obtain ⟨spans, member, found⟩ := List.mem_flatten.mp found
  obtain ⟨r, here, rfl⟩ := List.mem_map.mp member
  obtain ⟨free, read⟩ := reads r here
  rw [freeOf, read] at found
  obtain ⟨separate, within⟩ := computeAvailability_runs tree read
  exact ⟨separate.proper a found, within a found⟩

/-- Lists that see the same sets of free resources as enough are answered alike. -/
theorem computeMulti_same (tree : s.WellFormedTree) {ids others : List Ulid} {first last : Ms} {n : Nat}
    {shortest : Option Ms} (positive : 0 < n) (inside : others ⊆ ids) (fewer : others.length ≤ ids.length)
    (same : ∀ free : Ulid → Bool, n ≤ ids.countP free ↔ n ≤ others.countP free) {rows : List Span}
    (merges : MergedRead s now ids first last n shortest rows) :
    MergedRead s now others first last n shortest rows := by
  have enough : n ≤ ids.length ↔ n ≤ others.length := by simpa using same fun _ => true
  cases merges with
  | closed closed => exact .closed closed
  | idle wide narrow few idle =>
      have short : ids.length < n := by
        rcases idle with rfl | zero | many
        · exact positive
        · exact absurd zero positive.ne'
        · exact many
      exact .idle wide narrow (fewer.trans few) (.inr (.inr (fewer.trans_lt short)))
  | merged wide narrow few positive reach reads =>
      have reads' : ∀ r ∈ others, ∃ free, s.computeAvailability now r first last none = .ok free :=
        fun r listed => reads r (inside listed)
      have merged := sweepSegments_same positive (fun a found => (reads_proper tree reads a found).1)
        (fun a found => (reads_proper tree reads' a found).1) fun t => by
          rw [occupancy_reads tree reads, occupancy_reads tree reads']
          exact same _
      rw [merged]
      exact .merged wide narrow (fewer.trans few) positive (enough.mp reach) reads'

/-- Whoever asks for fewer resources is answered too. -/
theorem MergedRead.subset {ids others : List Ulid} {first last : Ms} {n : Nat} {shortest : Option Ms} {rows : List Span}
    (merges : MergedRead s now ids first last n shortest rows) (inside : others ⊆ ids)
    (fewer : others.length ≤ ids.length) : ∃ rows, MergedRead s now others first last n shortest rows := by
  cases merges with
  | closed closed => exact ⟨[], .closed closed⟩
  | idle wide narrow few idle =>
      refine ⟨[], .idle wide narrow (fewer.trans few) ?_⟩
      rcases idle with rfl | zero | many
      · exact .inl (List.subset_nil.mp inside)
      · exact .inr (.inl zero)
      · exact .inr (.inr (fewer.trans_lt many))
  | merged wide narrow few positive reach reads =>
      by_cases enough : n ≤ others.length
      · exact ⟨_, .merged wide narrow (fewer.trans few) positive enough fun r listed => reads r (inside listed)⟩
      · exact ⟨[], .idle wide narrow (fewer.trans few) (.inr (.inr (Nat.not_le.mp enough)))⟩

/-! ## A store of resources that all look the same -/

/-- A resource with one interval. -/
def holding (i : Interval) (r : Ulid) : ResourceState := ⟨r, none, none, 1, none, [i]⟩

/-- A store of such resources. -/
def filled (i : Interval) (ids : List Ulid) : InMemoryStore :=
  ids.foldr (fun r s => s.insertResource r (holding i r)) empty

theorem filled_getResource (i : Interval) (ids : List Ulid) (r : Ulid) :
    (filled i ids).getResource r = if r ∈ ids then some (holding i r) else none := by
  induction ids with
  | nil => rfl
  | cons first rest ih =>
      change ((filled i rest).resources.insert first (holding i first)).lookup r = _
      by_cases same : r = first
      · rw [same, AList.lookup_insert, if_pos List.mem_cons_self]
      · rw [AList.lookup_insert_ne same]
        exact ih.trans (by simp [same])

theorem filled_getParent (i : Interval) (ids : List Ulid) (r : Ulid) : (filled i ids).getParent r = none := by
  induction ids with
  | nil => rfl
  | cons first rest ih => exact ih

theorem filled_tree {i : Interval} (span : i.span.Representable) (ends : i.span.end ≤ maxValidTimestampMs)
    (ids : List Ulid) : (filled i ids).WellFormedTree := by
  have there : ∀ r rs, (filled i ids).getResource r = some rs → rs = holding i r := by
    intro r rs present
    rw [filled_getResource] at present
    split at present
    · cases present
      rfl
    · cases present
  constructor
  case timelines =>
    intro r rs present
    rw [there r rs present]
    exact ⟨List.pairwise_singleton _ _, List.forall_mem_singleton.mpr span, le_rfl⟩
  case ends =>
    intro r rs present
    rw [there r rs present]
    exact List.forall_mem_singleton.mpr ends
  case ancestors => exact fun r rs _ => ⟨[], .root (filled_getParent i ids r), Nat.zero_le _⟩

/-- A rule that opens exactly a window. -/
def opening (window : Span) : Interval := ⟨0, window, .nonBlocking⟩

theorem holding_free {window : Span} (proper : window.start < window.end) (r : Ulid) :
    availability (holding (opening window) r) window [] [] now = [window] := by
  have met : (holding (opening window) r).overlapping window = [opening window] := by
    rw [ResourceState.overlapping_eq (List.pairwise_singleton _ _)]
    simp [holding, opening, proper]
  have open' : (ownRuleSpans (holding (opening window) r) window) = ([window], []) := by
    simp only [ownRuleSpans, met]
    simp [opening]
  have quiet : ∀ query : Span, ∀ i ∈ (holding (opening window) r).overlapping query, i.kind.live now = false := by
    intro query i inside
    rw [List.mem_singleton.mp (ResourceState.mem_of_overlapping inside)]
    rfl
  have none' : ∀ (query : Span) (p : Interval → Bool),
      ((holding (opening window) r).overlapping query).filter (fun i => i.kind.live now && p i) = [] := by
    intro query p
    apply List.filter_eq_nil_iff.mpr
    intro i inside
    simp [quiet query i inside]
  unfold availability
  simp only [open', none', List.map_nil, List.isEmpty_nil, if_true]
  rfl

/-- The least length is a filter on the answer. -/
theorem computeAvailability_least (s : InMemoryStore) (now : Ms) (r : Ulid) (first last d : Ms) :
    s.computeAvailability now r first last (some d) = (s.computeAvailability now r first last none).map
      fun free => free.filter fun span => decide (span.durationMs ≥ d) := by
  unfold computeAvailability
  simp only
  split
  · rfl
  · split
    · rfl
    · split
      · rfl
      · generalize s.collectInheritedRules r (s.getParent r) _ = rules
        cases rules <;> rfl

/-- Nothing is as long as the window is not. -/
theorem computeAvailability_short (tree : s.WellFormedTree) {r : Ulid} {first last d : Ms} {free : List Span}
    (long : clampTimestamp last - clampTimestamp first < d)
    (read : s.computeAvailability now r first last (some d) = .ok free) : free = [] := by
  rw [computeAvailability_least] at read
  cases whole : s.computeAvailability now r first last none with
  | error e => rw [whole] at read; cases read
  | ok all =>
      rw [whole] at read
      cases read
      apply List.filter_eq_nil_iff.mpr
      intro span inside
      obtain ⟨lower, upper⟩ := (computeAvailability_runs tree whole).2 span inside
      simp only [Span.durationMs, ge_iff_le, decide_eq_true_eq]
      lia

/-- Whether a read of the window is answered, and not with spans that are all too short. -/
structure Readable (first last : Ms) (shortest : Option Ms) : Prop where
  wide : clampTimestamp first < clampTimestamp last
  narrow : satSub (clampTimestamp last) (clampTimestamp first) ≤ maxQueryWindowMs
  long : ∀ d ∈ shortest, d ≤ clampTimestamp last - clampTimestamp first

theorem unreadable_nothing (tree : s.WellFormedTree) {r : Ulid} {first last : Ms} {shortest : Option Ms} {free : List Span}
    (unreadable : ¬ Readable first last shortest) (read : s.computeAvailability now r first last shortest = .ok free) :
    free = [] := by
  by_cases wide : clampTimestamp first < clampTimestamp last
  · cases shortest with
    | none => exact absurd ⟨wide, accepted_width read, fun _ asked => nomatch asked⟩ unreadable
    | some d =>
        apply computeAvailability_short tree _ read
        by_contra short
        rw [computeAvailability_least] at read
        cases whole : s.computeAvailability now r first last none with
        | error e => rw [whole] at read; cases read
        | ok all =>
            apply unreadable
            refine ⟨wide, accepted_width whole, fun d' asked => ?_⟩
            cases asked
            exact Int.not_lt.mp short
  · have closed := Int.not_lt.mp wide
    unfold computeAvailability at read
    simp only at read
    rw [if_pos (show max minValidTimestampMs (min maxValidTimestampMs last) ≤
      max minValidTimestampMs (min maxValidTimestampMs first) from closed)] at read
    cases read
    rfl

/-- The runs of a merged read lie in its window. -/
theorem merged_within (tree : s.WellFormedTree) {ids : List Ulid} {first last : Ms} {n : Nat} (positive : 0 < n)
    (reads : ∀ r ∈ ids, ∃ free, s.computeAvailability now r first last none = .ok free) :
    ∀ span ∈ mergeOverlapping (sweepSegments n (ids.map (s.freeOf now first last)).flatten),
      clampTimestamp first ≤ span.start ∧ span.start < span.end ∧ span.end ≤ clampTimestamp last := by
  have covered : ∀ t, Covers (mergeOverlapping (sweepSegments n (ids.map (s.freeOf now first last)).flatten)) t →
      clampTimestamp first ≤ t ∧ t < clampTimestamp last := by
    intro t covers
    rw [mergeOverlapping_covers sweepSegments_ordered,
      sweepSegments_covers positive fun a found => (reads_proper tree reads a found).1] at covers
    obtain ⟨a, found, started, ended⟩ := covers_iff_occupancy.mpr (positive.trans_le covers)
    obtain ⟨_, lower, upper⟩ := reads_proper tree reads a found
    exact ⟨lower.trans started, ended.trans_le upper⟩
  intro span inside
  have proper := (mergeOverlapping_separate sweepSegments_ordered sweepSegments_proper).proper span inside
  have first' := covered span.start ⟨span, inside, le_rfl, proper⟩
  have last' := covered (span.end - 1) ⟨span, inside, by lia, by lia⟩
  exact ⟨first'.1, proper, by lia⟩

theorem MergedRead.unreadable (tree : s.WellFormedTree) {ids : List Ulid} {first last : Ms} {n : Nat}
    {shortest : Option Ms} {rows : List Span} (unreadable : ¬ Readable first last shortest)
    (merges : MergedRead s now ids first last n shortest rows) : rows = [] := by
  cases merges with
  | closed => rfl
  | idle => rfl
  | merged wide narrow few positive enough reads =>
      have within := merged_within tree positive reads
      cases shortest with
      | none =>
          apply List.eq_nil_iff_forall_not_mem.mpr
          intro span inside
          obtain ⟨lower, proper, upper⟩ := within span inside
          obtain ⟨r, listed⟩ := List.exists_mem_of_ne_nil ids (List.ne_nil_of_length_pos (positive.trans_le enough))
          obtain ⟨free, read⟩ := reads r listed
          apply unreadable
          exact ⟨by lia, accepted_width read, fun _ asked => nomatch asked⟩
      | some d =>
          apply List.filter_eq_nil_iff.mpr
          intro span inside long
          obtain ⟨lower, proper, upper⟩ := within span inside
          obtain ⟨r, listed⟩ := List.exists_mem_of_ne_nil ids (List.ne_nil_of_length_pos (positive.trans_le enough))
          obtain ⟨free, read⟩ := reads r listed
          simp only [Span.durationMs, ge_iff_le, decide_eq_true_eq] at long
          apply unreadable
          refine ⟨by lia, accepted_width read, fun d' asked => ?_⟩
          cases asked
          lia

theorem Readable.started {first last : Ms} {shortest : Option Ms} (readable : Readable first last shortest) : first < last := by
  have clamped := readable.wide
  simp only [clampTimestamp] at clamped
  lia

theorem MergedRead.few {ids : List Ulid} {first last : Ms} {n : Nat} {shortest : Option Ms} {rows : List Span}
    (readable : Readable first last shortest) (merges : MergedRead s now ids first last n shortest rows) :
    ids.length ≤ maxInClauseIds := by
  cases merges with
  | closed closed => exact absurd readable.started (Int.not_lt.mpr closed)
  | idle _ _ few _ => exact few
  | merged _ _ few _ _ _ => exact few

theorem MergedRead.wide {ids : List Ulid} {first last : Ms} {n : Nat} {shortest : Option Ms} {rows : List Span}
    (wide : ¬ satSub last first ≤ maxQueryWindowMs) (merges : MergedRead s now ids first last n shortest rows) :
    rows = [] := by
  cases merges with
  | closed => rfl
  | idle => rfl
  | merged _ narrow => exact absurd narrow wide

/-- The window of a read. -/
def window (first last : Ms) : Span := ⟨clampTimestamp first, clampTimestamp last⟩

theorem window_representable {first last : Ms} {shortest : Option Ms} (readable : Readable first last shortest) :
    (window first last).Representable ∧ (window first last).end ≤ maxValidTimestampMs := by
  have lower : 0 ≤ clampTimestamp first := le_max_left _ _
  have upper : clampTimestamp last ≤ maxValidTimestampMs := max_le (by decide) (min_le_left _ _)
  exact ⟨⟨readable.wide, lower, upper.trans (by decide)⟩, upper⟩

theorem filled_read {first last : Ms} {shortest : Option Ms} (readable : Readable first last shortest) (ids : List Ulid)
    (r : Ulid) : (filled (opening (window first last)) ids).computeAvailability now r first last shortest =
      .ok (if r ∈ ids then [window first last] else []) := by
  have whole : (filled (opening (window first last)) ids).computeAvailability now r first last none =
      .ok (if r ∈ ids then [window first last] else []) := by
    by_cases listed : r ∈ ids
    · have present := filled_getResource (opening (window first last)) ids r
      rw [if_pos listed] at present
      rw [computeAvailability_ok present (.root (filled_getParent _ ids r)) (Nat.zero_le _) readable.narrow, if_pos listed,
        if_neg (Int.not_le.mpr readable.wide)]
      exact congrArg Except.ok (holding_free readable.wide r)
    · have absent := filled_getResource (opening (window first last)) ids r
      rw [if_neg listed] at absent
      rw [if_neg listed]
      simp only [computeAvailability, absent]
      split
      · rfl
      · split
        · next beyond => exact absurd readable.narrow (Int.not_le.mpr beyond)
        · rfl
  cases shortest with
  | none => exact whole
  | some d =>
      rw [computeAvailability_least, whole]
      have long := readable.long d rfl
      by_cases listed : r ∈ ids
      · rw [if_pos listed]
        simp [Except.map, Span.durationMs, window, long]
      · rw [if_neg listed]
        rfl

theorem filled_segments {first last : Ms} {n : Nat} (readable : Readable first last none) {ids listed : List Ulid}
    (positive : 0 < n) : mergeOverlapping (sweepSegments n
        (listed.map ((filled (opening (window first last)) ids).freeOf now first last)).flatten) =
      if n ≤ listed.countP (· ∈ ids) then [window first last] else [] := by
  have tree : (filled (opening (window first last)) ids).WellFormedTree :=
    filled_tree (window_representable readable).1 (window_representable readable).2 ids
  have free : ∀ r, (filled (opening (window first last)) ids).freeOf now first last r =
      if r ∈ ids then [window first last] else [] := fun r => by rw [freeOf, filled_read readable]; rfl
  have reads : ∀ r ∈ listed, ∃ free, (filled (opening (window first last)) ids).computeAvailability now r first last none =
      .ok free := fun r _ => ⟨_, filled_read readable ids r⟩
  have right : Separate (if n ≤ listed.countP (· ∈ ids) then [window first last] else []) := by
    split
    · exact .singleton readable.wide
    · exact .nil
  apply Separate.eq (mergeOverlapping_separate sweepSegments_ordered sweepSegments_proper) right
  intro t
  rw [mergeOverlapping_covers sweepSegments_ordered, sweepSegments_covers positive fun a found => (reads_proper tree reads a found).1, occupancy_reads tree reads]
  by_cases inside : (window first last).start ≤ t ∧ t < (window first last).end
  · have each : ∀ r ∈ listed, decide (0 < occupancy ((filled (opening (window first last)) ids).freeOf now first last r) t) =
        true ↔ decide (r ∈ ids) = true := by
      intro r _
      rw [free]
      by_cases here : r ∈ ids <;> simp [here, occupancy, inside]
    rw [List.countP_congr each]
    split
    · next enough => exact iff_of_true enough ⟨_, List.mem_singleton_self _, inside⟩
    · next less => exact iff_of_false less covers_nil
  · have none' : listed.countP (fun r => decide (0 < occupancy
        ((filled (opening (window first last)) ids).freeOf now first last r) t)) = 0 := by
      apply List.countP_eq_zero.mpr
      intro r _
      rw [free]
      by_cases here : r ∈ ids
      · simpa [here, occupancy] using inside
      · simp [here, occupancy]
    rw [none']
    apply iff_of_false (Nat.not_le.mpr positive)
    rintro ⟨span, member, covered⟩
    split at member
    · exact inside (List.mem_singleton.mp member ▸ covered)
    · cases member

theorem filled_merged {first last : Ms} {n : Nat} {shortest : Option Ms} (readable : Readable first last shortest)
    (narrow : satSub last first ≤ maxQueryWindowMs) {ids listed : List Ulid} (few : listed.length ≤ maxInClauseIds)
    (positive : 0 < n) : (filled (opening (window first last)) ids).computeMultiAvailability now listed first last n shortest =
      .ok (if n ≤ listed.countP (· ∈ ids) then [window first last] else []) := by
  have wide := readable.started
  have readable' : Readable first last none := ⟨readable.wide, readable.narrow, fun _ asked => nomatch asked⟩
  rw [computeMulti_merged]
  by_cases enough : n ≤ listed.length
  · have merges : MergedRead (filled (opening (window first last)) ids) now listed first last n shortest _ :=
      .merged wide narrow few positive enough fun r _ => ⟨_, filled_read readable' ids r⟩
    rw [filled_segments readable' positive] at merges
    have long : longEnough shortest (if n ≤ listed.countP (· ∈ ids) then [window first last] else []) =
        if n ≤ listed.countP (· ∈ ids) then [window first last] else [] := by
      cases shortest with
      | none => rfl
      | some d =>
          have long := readable.long d rfl
          by_cases reach : n ≤ listed.countP (· ∈ ids)
          · rw [if_pos reach]
            simp [longEnough, Span.durationMs, window, long]
          · rw [if_neg reach]
            rfl
    exact long ▸ merges
  · rw [if_neg fun reach => enough (reach.trans List.countP_le_length)]
    exact .idle wide narrow few (.inr (.inr (Nat.not_le.mp enough)))

end InMemoryStore

end Deltat
