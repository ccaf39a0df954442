import Deltat.FreeRuns

/-! # The loops of the availability algorithm

The same functions as the loops that the source writes: vectors that grow at their end, a cursor
into the removals that is never moved back, and a counter that steps down as well as up. `none` is
a panic: a span that would not be proper, or a counter below zero or past its 32 bits. Each loop
runs to its end and leaves what the recursion gives.
-/

namespace Deltat

open Lib Limits Availability

namespace Loops

/-! ## Merging -/

/-- Extend the last span if this one overlaps or touches it, else push this one. -/
def mergeNext (merged : List Span) (span : Span) : List Span :=
  match merged.getLast? with
  | some last =>
      if span.start ≤ last.end then merged.dropLast ++ [⟨last.start, max last.end span.end⟩] else merged ++ [span]
  | none => merged ++ [span]

def mergeOverlapping (sorted : List Span) : List Span := sorted.foldl mergeNext []

theorem foldl_mergeNext (rest : List Span) (merged : List Span) (last : Span) :
    rest.foldl mergeNext (merged ++ [last]) = merged ++ mergeFrom last rest := by
  induction rest generalizing merged last with
  | nil => rfl
  | cons span rest ih =>
      have next : mergeNext (merged ++ [last]) span =
          if span.start ≤ last.end then merged ++ [⟨last.start, max last.end span.end⟩] else merged ++ [last] ++ [span] := by
        simp only [mergeNext, List.getLast?_append, List.getLast?_singleton, Option.some_or, List.dropLast_concat]
      rw [List.foldl_cons, next]
      unfold mergeFrom
      split
      · exact ih _ _
      · rw [ih]
        exact List.append_assoc _ _ _

theorem mergeOverlapping_eq (sorted : List Span) : mergeOverlapping sorted = Availability.mergeOverlapping sorted := by
  cases sorted with
  | nil => rfl
  | cons span rest => exact foldl_mergeNext rest [] span

/-! ## Subtracting -/

/-- Push a new span. -/
def push (result : List Span) (start «end» : Ms) : Option (List Span) := do
  let span ← Asserting.newSpan start «end»
  return result ++ [span]

/-- Move the cursor past the removals that have ended. -/
def skip (toRemove : List Span) (currentStart : Ms) (ri : Nat) : Nat :=
  if inside : ri < toRemove.length then
    if toRemove[ri].end ≤ currentStart then skip toRemove currentStart (ri + 1) else ri
  else ri

/-- The loop over the removals that begin before the end of a base span: the start of what is
    left of the span, and the result. -/
def cut (toRemove : List Span) (currentEnd : Ms) (j : Nat) (currentStart : Ms) (result : List Span) :
    Option (Ms × List Span) :=
  if inside : j < toRemove.length then
    let r := toRemove[j]
    if r.start < currentEnd then do
      let result ← if r.start > currentStart then push result currentStart r.start else some result
      cut toRemove currentEnd (j + 1) (max currentStart r.end) result
    else some (currentStart, result)
  else some (currentStart, result)

/-- One base span, with the cursor and the result so far. -/
def subtractNext (toRemove : List Span) (state : Nat × List Span) (b : Span) : Option (Nat × List Span) := do
  let ri := skip toRemove b.start state.1
  let (currentStart, result) ← cut toRemove b.end ri b.start state.2
  let result ← if currentStart < b.end then push result currentStart b.end else some result
  return (ri, result)

def subtractIntervals (base toRemove : List Span) : Option (List Span) := do
  let (_, result) ← base.foldlM (subtractNext toRemove) (0, [])
  return result

theorem push_returns {result : List Span} {first last : Ms} (proper : first < last) :
    push result first last = some (result ++ [⟨first, last⟩]) := by
  unfold push
  rw [Asserting.newSpan_of proper]
  rfl

/-- The removals from the cursor on. -/
theorem drop_skip (toRemove : List Span) (currentStart : Ms) (ri : Nat) :
    toRemove.drop (skip toRemove currentStart ri) = (toRemove.drop ri).dropWhile fun r => decide (r.end ≤ currentStart) := by
  induction ri using skip.induct toRemove currentStart with
  | case1 ri inside ended ih =>
      rw [skip, dif_pos inside, if_pos ended, ih, List.drop_eq_getElem_cons inside, List.dropWhile_cons,
        if_pos (decide_eq_true ended)]
  | case2 ri inside running =>
      rw [skip, dif_pos inside, if_neg running, List.drop_eq_getElem_cons inside, List.dropWhile_cons,
        if_neg fun ended => running (of_decide_eq_true ended)]
  | case3 ri past =>
      rw [skip, dif_neg past, List.drop_eq_nil_of_le (Nat.le_of_not_lt past)]
      rfl

/-- The inner loop leaves the pieces in front of its removals, and the piece behind them is what
    the recursion adds. -/
theorem cut_returns (toRemove : List Span) (high : Ms) (j : Nat) (low : Ms) (result : List Span) :
    ∃ stop left, cut toRemove high j low result = some (stop, result ++ left) ∧
      carve low high (toRemove.drop j) = left ++ if stop < high then [⟨stop, high⟩] else [] := by
  induction hn : toRemove.length - j generalizing j low result with
  | zero =>
      have past : ¬ j < toRemove.length := by omega
      rw [cut, dif_neg past, List.drop_eq_nil_of_le (Nat.le_of_not_lt past)]
      exact ⟨low, [], by rw [List.append_nil], rfl⟩
  | succ n ih =>
      have inside : j < toRemove.length := by omega
      have next := ih (j + 1) (max low toRemove[j].end)
      rw [cut, dif_pos inside, List.drop_eq_getElem_cons inside, carve]
      simp only
      split
      · split
        · next early left =>
            obtain ⟨stop, pieces, returned, carved⟩ := next (result ++ [⟨low, toRemove[j].start⟩]) (by omega)
            refine ⟨stop, ⟨low, toRemove[j].start⟩ :: pieces, ?_, ?_⟩
            · rw [push_returns left]
              exact returned.trans (by rw [List.append_assoc, List.singleton_append])
            · rw [carved]
              rfl
        · obtain ⟨stop, pieces, returned, carved⟩ := next result (by omega)
          exact ⟨stop, pieces, returned, carved⟩
      · exact ⟨low, [], by rw [List.append_nil], rfl⟩

/-- One base span leaves what the recursion carves out of it. -/
theorem subtractNext_returns (toRemove : List Span) (ri : Nat) (result : List Span) (b : Span) :
    subtractNext toRemove (ri, result) b = some (skip toRemove b.start ri, result ++
      carve b.start b.end ((toRemove.drop ri).dropWhile fun r => decide (r.end ≤ b.start))) := by
  obtain ⟨stop, left, returned, carved⟩ := cut_returns toRemove b.end (skip toRemove b.start ri) b.start result
  rw [drop_skip] at carved
  rw [carved, ← List.append_assoc]
  unfold subtractNext
  simp only [returned, Option.bind_eq_bind, Option.bind_some]
  split
  · next more =>
      rw [push_returns more]
      rfl
  · rw [List.append_nil]
    rfl

/-- The loops never panic, and leave what the recursion leaves. -/
theorem subtractIntervals_returns (base toRemove : List Span) :
    subtractIntervals base toRemove = some (Availability.subtractIntervals base toRemove) := by
  have loop : ∀ (base : List Span) (ri : Nat) (result : List Span), ∃ last, base.foldlM (subtractNext toRemove) (ri, result) =
      some (last, result ++ Availability.subtractIntervals base (toRemove.drop ri)) := by
    intro base
    induction base with
    | nil => exact fun ri result => ⟨ri, by rw [Availability.subtractIntervals, List.append_nil]; rfl⟩
    | cons b base ih =>
        intro ri result
        obtain ⟨last, rest⟩ := ih (skip toRemove b.start ri)
          (result ++ carve b.start b.end ((toRemove.drop ri).dropWhile fun r => decide (r.end ≤ b.start)))
        refine ⟨last, ?_⟩
        rw [List.foldlM_cons, subtractNext_returns]
        rw [drop_skip, List.append_assoc] at rest
        exact rest
  obtain ⟨last, ran⟩ := loop base 0 []
  unfold subtractIntervals
  rw [ran]
  rfl

/-! ## Sweeping -/

/-- An addition and a subtraction of unsigned 32-bit numbers. -/
def addCount (a b : Nat) : Option Nat := if a + b ≤ u32Max then some (a + b) else none

def subCount (a b : Nat) : Option Nat := if b ≤ a then some (a - b) else none

/-- Step the counter up or down. -/
def countNext (count : Nat) (delta : Int) : Option Nat :=
  if delta > 0 then addCount count delta.toNat else subCount count (-delta).toNat

/-- The sweep between two end points. -/
structure SweepState where
  count : Nat
  saturatedStart : Option Ms
  result : List Span

/-- Count an end point, and start or close a saturated range at it. -/
def sweepNext (capacity : Nat) (state : SweepState) (event : Ms × Int) : Option SweepState := do
  let (time, delta) := event
  let count ← countNext state.count delta
  if count ≥ capacity ∧ state.saturatedStart.isNone then return { state with count, saturatedStart := some time }
  else if count < capacity then
    match state.saturatedStart with
    | some start => do
        let result ← if time > start then push state.result start time else some state.result
        return ⟨count, none, result⟩
    | none => return { state with count }
  else return { state with count }

/-- The end points of the allocations, as the sweep visits them. -/
def sweepEvents (allocs : List Span) : List (Ms × Int) :=
  (Sweep.endpoints (allocs.map fun a => (a.start, a.end))).insertionSort Sweep.Before

def sweep (capacity : Nat) (allocs : List Span) : Option SweepState :=
  (sweepEvents allocs).foldlM (sweepNext capacity) ⟨0, none, []⟩

def computeSaturatedSpans (allocs : List Span) (capacity : Nat) : Option (List Span) :=
  if allocs.isEmpty || capacity == 0 then some []
  else if capacity == 1 then some (mergeOverlapping allocs)
  else do
    let swept ← sweep capacity allocs
    return swept.result

/-- A count that stays in range is the sum of the changes. -/
theorem countNext_returns {count next : Nat} {delta : Int} (sign : delta = 1 ∨ delta = -1) (isNext : (count : Int) + delta = next)
    (fits : next ≤ u32Max) : countNext count delta = some next := by
  unfold countNext
  rcases sign with rfl | rfl
  · have up : count + 1 = next := by omega
    rw [if_pos (by decide), addCount, ← up]
    exact if_pos (up ▸ fits)
  · have down : next + 1 = count := by omega
    rw [if_neg (by decide), subCount, ← down]
    exact if_pos (Nat.le_add_left 1 next)

/-- What one end point does: a range is open exactly when the count has reached the capacity, and
    what the step pushes is what the recursion reports at that end point. -/
theorem sweepNext_returns {capacity count next : Nat} {time : Ms} {delta : Int} {since : Option Ms} {result : List Span}
    (sign : delta = 1 ∨ delta = -1) (isNext : (count : Int) + delta = next) (fits : next ≤ u32Max)
    (opened : since.isSome ↔ capacity ≤ count) :
    ∃ since' left, sweepNext capacity ⟨count, since, result⟩ (time, delta) =
        some ⟨next, since', result ++ left.map fun s => ⟨s.1, s.2⟩⟩ ∧
      (since'.isSome ↔ capacity ≤ next) ∧
      ∀ rest, Sweep.saturated capacity ((time, delta) :: rest) count since = left ++ Sweep.saturated capacity rest next since' := by
  have counted := countNext_returns sign isNext fits
  unfold sweepNext
  simp only [counted, Option.bind_eq_bind, Option.bind_some]
  cases since with
  | none =>
      by_cases full : capacity ≤ next
      · refine ⟨some time, [], ?_, by simpa using full, fun rest => ?_⟩
        · rw [if_pos ⟨full, rfl⟩, List.map_nil, List.append_nil]
          rfl
        · rw [Sweep.saturated, isNext, if_pos (Int.ofNat_le.mpr full)]
          rfl
      · refine ⟨none, [], ?_, by simpa using full, fun rest => ?_⟩
        · rw [if_neg fun both => full both.1, if_pos (Nat.lt_of_not_le full), List.map_nil, List.append_nil]
          rfl
        · rw [Sweep.saturated, isNext, if_neg fun reached => full (Int.ofNat_le.mp reached)]
          rfl
  | some start =>
      by_cases low : next < capacity
      · have closed : (none : Option Ms).isSome ↔ capacity ≤ next := by simpa using low
        by_cases wide : start < time
        · refine ⟨none, [(start, time)], ?_, closed, fun rest => ?_⟩
          · rw [if_neg fun both => Bool.noConfusion both.2, if_pos low]
            simp only [gt_iff_lt, if_pos wide, push_returns wide]
            rfl
          · rw [Sweep.saturated, isNext, if_pos (Int.ofNat_lt.mpr low), if_pos wide]
            rfl
        · refine ⟨none, [], ?_, closed, fun rest => ?_⟩
          · rw [if_neg fun both => Bool.noConfusion both.2, if_pos low]
            simp only [gt_iff_lt, if_neg wide, List.map_nil, List.append_nil]
            rfl
          · rw [Sweep.saturated, isNext, if_pos (Int.ofNat_lt.mpr low), if_neg wide]
            rfl
      · refine ⟨some start, [], ?_, by simpa using Nat.le_of_not_lt low, fun rest => ?_⟩
        · rw [if_neg fun both => Bool.noConfusion both.2, if_neg low, List.map_nil, List.append_nil]
          rfl
        · rw [Sweep.saturated, isNext, if_neg fun below => low (Int.ofNat_lt.mp below)]
          rfl

/-- The loop goes through end points whose count stays in range. -/
theorem foldlM_sweepNext {capacity : Nat} {events : List (Ms × Int)} (signs : ∀ p ∈ events, p.2 = 1 ∨ p.2 = -1) :
    ∀ {count : Nat} {since : Option Ms} {result : List Span}, Sweep.counted u32Max events count = true →
      (since.isSome ↔ capacity ≤ count) → ∃ last since', events.foldlM (sweepNext capacity) ⟨count, since, result⟩ =
          some ⟨last, since', result ++ (Sweep.saturated capacity events count since).map fun s => ⟨s.1, s.2⟩⟩ ∧
        (last : Int) = count + Sweep.total events ∧ (since'.isSome ↔ capacity ≤ last) := by
  induction events with
  | nil =>
      intro count since result _ opened
      exact ⟨count, since, by rw [Sweep.saturated, List.map_nil, List.append_nil]; rfl, by simp [Sweep.total], opened⟩
  | cons event rest ih =>
      intro count since result counted opened
      obtain ⟨time, delta⟩ := event
      obtain ⟨sign, others⟩ := List.forall_mem_cons.mp signs
      simp only [Sweep.counted, Bool.and_eq_true, decide_eq_true_eq] at counted
      obtain ⟨⟨positive, fits⟩, later⟩ := counted
      obtain ⟨next, isNext⟩ := Int.eq_ofNat_of_zero_le positive
      rw [isNext] at fits later
      obtain ⟨between, left, stepped, opened', reported⟩ :=
        @sweepNext_returns capacity count next time delta since result sign isNext (Int.ofNat_le.mp fits) opened
      obtain ⟨last, since', ran, sum, closed⟩ := ih others later opened'
      refine ⟨last, since', ?_, ?_, closed⟩
      · rw [List.foldlM_cons, stepped, reported, List.map_append, ← List.append_assoc]
        exact ran
      · rw [sum, ← isNext, Sweep.total, Sweep.total, List.map_cons, List.sum_cons, Int.add_assoc]

/-- Over proper spans the sweep runs to its end, with nothing left open. -/
theorem sweep_returns {capacity : Nat} {allocs : List Span} (positive : 0 < capacity) (proper : ∀ a ∈ allocs, a.start < a.end)
    (few : allocs.length ≤ u32Max) :
    sweep capacity allocs = some ⟨0, none, (Sweep.saturated capacity (sweepEvents allocs) 0 none).map fun s => ⟨s.1, s.2⟩⟩ := by
  have pairs : ∀ s ∈ allocs.map fun a => (a.start, a.end), s.1 < s.2 := List.forall_mem_map.mpr proper
  have counted : Sweep.counted u32Max (sweepEvents allocs) 0 = true :=
    Sweep.counted_endpoints pairs ((List.length_map _).trans_le few)
  have same := List.perm_insertionSort Sweep.Before (Sweep.endpoints (allocs.map fun a => (a.start, a.end)))
  have idle : (none : Option Ms).isSome ↔ capacity ≤ 0 := by simpa using positive.ne'
  obtain ⟨last, since', ran, sum, closed⟩ := @foldlM_sweepNext capacity (sweepEvents allocs)
    (fun p inside => Sweep.endpoints_signs _ p (same.mem_iff.mp inside)) 0 none [] counted idle
  have none' : last = 0 := by
    rw [sweepEvents, Sweep.total_perm same, Sweep.total_endpoints] at sum
    omega
  subst none'
  have shut : since' = none := Option.not_isSome_iff_eq_none.mp fun held => by
    have reached := closed.mp held
    omega
  subst shut
  exact ran

/-- The search for saturated ranges never panics, and finds what the recursion finds. -/
theorem computeSaturatedSpans_returns {capacity : Nat} {allocs : List Span} (proper : ∀ a ∈ allocs, a.start < a.end)
    (few : allocs.length ≤ u32Max) :
    computeSaturatedSpans allocs capacity = some (Availability.computeSaturatedSpans allocs capacity) := by
  unfold computeSaturatedSpans Availability.computeSaturatedSpans
  split
  · rfl
  · next some' =>
      have positive : 0 < capacity := Nat.pos_of_ne_zero fun zero => by simp [zero] at some'
      split
      · rw [mergeOverlapping_eq]
      · rw [sweep_returns positive proper few]
        rfl

end Loops

end Deltat
