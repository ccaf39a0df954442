import Mathlib.Data.List.Sort
import Mathlib.Algebra.BigOperators.Group.List.Basic
import Mathlib.Tactic

/-! # Threshold sweep over half-open intervals

A sweep visits the end points of intervals in order of time, an interval's start counting
`+1` and its end `-1`, and reports the runs during which the running count is at least a
threshold. What the runs cover is the set of instants at which that many intervals are
open, whatever the ties between end points.
-/

namespace Lib.Sweep

variable {τ : Type*} [LinearOrder τ]

/-- The instant lies in one of the half-open intervals. -/
def Covered (spans : List (τ × τ)) (t : τ) : Prop :=
  ∃ s ∈ spans, s.1 ≤ t ∧ t < s.2

/-- How many of the half-open intervals contain the instant. -/
def occupancy (spans : List (τ × τ)) (t : τ) : Nat :=
  spans.countP fun s => s.1 ≤ t ∧ t < s.2

/-- Both end points of every interval, with the change each makes to the count. -/
def endpoints (spans : List (τ × τ)) : List (τ × Int) :=
  spans.flatMap fun s => [(s.1, 1), (s.2, -1)]

/-- The order of the sweep: by time, and closings before openings at one instant. -/
def Before (a b : τ × Int) : Prop :=
  a.1 < b.1 ∨ a.1 = b.1 ∧ a.2 ≤ b.2

instance : DecidableRel (Before (τ := τ)) := fun a b =>
  inferInstanceAs (Decidable (a.1 < b.1 ∨ a.1 = b.1 ∧ a.2 ≤ b.2))

instance : Std.Total (Before (τ := τ)) where
  total a b := by
    rcases lt_trichotomy a.1 b.1 with lt | eq | gt
    · exact .inl (.inl lt)
    · rcases le_total a.2 b.2 with le | ge
      · exact .inl (.inr ⟨eq, le⟩)
      · exact .inr (.inr ⟨eq.symm, ge⟩)
    · exact .inr (.inl gt)

instance : IsTrans (τ × Int) Before where
  trans a b c hab hbc := by
    rcases hab with lt | ⟨eq, le⟩ <;> rcases hbc with lt' | ⟨eq', le'⟩
    · exact .inl (lt.trans lt')
    · exact .inl (eq' ▸ lt)
    · exact .inl (eq ▸ lt')
    · exact .inr ⟨eq.trans eq', le.trans le'⟩

/-- The runs during which the count is at least `capacity`. `since` is the start of the
    run that is open before the next end point, if one is. -/
def saturated (capacity : Int) : List (τ × Int) → Int → Option τ → List (τ × τ)
  | [], _, _ => []
  | (time, delta) :: rest, count, none =>
      if capacity ≤ count + delta then saturated capacity rest (count + delta) (some time)
      else saturated capacity rest (count + delta) none
  | (time, delta) :: rest, count, some start =>
      if count + delta < capacity then
        if start < time then (start, time) :: saturated capacity rest (count + delta) none
        else saturated capacity rest (count + delta) none
      else saturated capacity rest (count + delta) (some start)

/-- The change to the count made by the end points up to and including the instant. -/
def level (points : List (τ × Int)) (t : τ) : Int :=
  ((points.filter fun p => p.1 ≤ t).map Prod.snd).sum

/-- The change to the count made by all the end points. -/
def total (points : List (τ × Int)) : Int :=
  (points.map Prod.snd).sum

theorem covered_cons {s : τ × τ} {spans : List (τ × τ)} {t : τ} :
    Covered (s :: spans) t ↔ (s.1 ≤ t ∧ t < s.2) ∨ Covered spans t := by
  simp [Covered]

theorem level_cons (p : τ × Int) (points : List (τ × Int)) (t : τ) :
    level (p :: points) t = (if p.1 ≤ t then p.2 else 0) + level points t := by
  by_cases h : p.1 ≤ t <;> simp [level, h]

theorem level_before {points : List (τ × Int)} {t : τ} (before : ∀ p ∈ points, t < p.1) :
    level points t = 0 := by
  have none_left : points.filter (fun p => p.1 ≤ t) = [] := by
    rw [List.filter_eq_nil_iff]
    intro p hp le
    exact absurd (of_decide_eq_true le) (not_le.mpr (before p hp))
  simp [level, none_left]

theorem level_perm {points points' : List (τ × Int)} (same : points.Perm points') (t : τ) :
    level points t = level points' t :=
  ((same.filter _).map _).sum_eq

omit [LinearOrder τ] in
theorem total_perm {points points' : List (τ × Int)} (same : points.Perm points') :
    total points = total points' :=
  (same.map _).sum_eq

/-- The count at an instant is the number of intervals that contain it. -/
theorem level_endpoints {spans : List (τ × τ)} (proper : ∀ s ∈ spans, s.1 < s.2) (t : τ) :
    level (endpoints spans) t = occupancy spans t := by
  induction spans with
  | nil => rfl
  | cons s spans ih =>
      have lt := proper s List.mem_cons_self
      have rest := ih fun s' hs' => proper s' (List.mem_cons_of_mem _ hs')
      have unfolded : endpoints (s :: spans) = (s.1, 1) :: (s.2, -1) :: endpoints spans := rfl
      rw [unfolded, level_cons, level_cons, rest, occupancy, occupancy, List.countP_cons]
      by_cases started : s.1 ≤ t
      · by_cases ended : s.2 ≤ t
        · simp [started, ended, not_lt.mpr ended]
        · simp [started, ended, not_le.mp ended]
          omega
      · have notEnded : ¬ s.2 ≤ t := fun le => started (lt.le.trans le)
        simp [started, notEnded]

omit [LinearOrder τ] in
theorem total_endpoints (spans : List (τ × τ)) : total (endpoints spans) = 0 := by
  induction spans with
  | nil => rfl
  | cons s spans ih =>
      have unfolded : endpoints (s :: spans) = (s.1, 1) :: (s.2, -1) :: endpoints spans := rfl
      simp only [total] at ih
      simp [unfolded, total, ih]

/-- The state of a sweep before the end points that are left: a run is open exactly when
    the count has reached the capacity, and it was opened no later than `now`. -/
structure Sweeping (capacity : Int) (count : Int) (since : Option τ) (now : τ) : Prop where
  open_iff : since.isSome ↔ capacity ≤ count
  opened : ∀ start, since = some start → start ≤ now

/-- What is left of a sweep covers the open run up to now, and from now on the instants at
    which the count is at least the capacity. -/
theorem covered_saturated {capacity : Int} :
    ∀ {points : List (τ × Int)} {count : Int} {since : Option τ} {now : τ},
      Sweeping capacity count since now →
      points.Pairwise (fun a b => a.1 ≤ b.1) → (∀ p ∈ points, now ≤ p.1) →
      count + total points < capacity → ∀ t,
      Covered (saturated capacity points count since) t ↔
        (t < now ∧ ∃ start, since = some start ∧ start ≤ t) ∨
        (now ≤ t ∧ capacity ≤ count + level points t) := by
  intro points
  induction points with
  | nil =>
      intro count since now state _ _ closes t
      have low : count < capacity := by simpa [total] using closes
      have closed : since = none := by
        rw [← Option.not_isSome_iff_eq_none, state.open_iff]
        omega
      subst closed
      have : ¬ capacity ≤ count := by omega
      simp [saturated, Covered, level, this]
  | cons p rest ih =>
      obtain ⟨time, delta⟩ := p
      intro count since now state sorted later closes t
      have nowLe : now ≤ time := later (time, delta) List.mem_cons_self
      obtain ⟨ahead, sortedRest⟩ := List.pairwise_cons.mp sorted
      have closesRest : count + delta + total rest < capacity := by
        simp only [total, List.map_cons, List.sum_cons] at closes ⊢
        omega
      have pending : t < time → level rest t = 0 := fun lt =>
        level_before fun q hq => lt_of_lt_of_le lt (ahead q hq)
      rw [level_cons]
      cases since with
      | none =>
          have low : ¬ capacity ≤ count := by simpa using state.open_iff
          simp only [saturated]
          by_cases reached : capacity ≤ count + delta
          · have starts : Sweeping capacity (count + delta) (some time) time := ⟨by simpa using reached, by simp⟩
            rw [if_pos reached, ih starts sortedRest ahead closesRest]
            by_cases lt : t < time
            · have notLe : ¬ time ≤ t := not_le.mpr lt
              simp [lt, notLe, pending lt, low]
            · have le : time ≤ t := not_lt.mp lt
              simp [lt, le, nowLe.trans le, add_assoc]
          · have waits : Sweeping capacity (count + delta) none time := ⟨by simpa using reached, by simp⟩
            rw [if_neg reached, ih waits sortedRest ahead closesRest]
            by_cases lt : t < time
            · have notLe : ¬ time ≤ t := not_le.mpr lt
              simp [notLe, pending lt, low]
            · have le : time ≤ t := not_lt.mp lt
              simp [le, nowLe.trans le, add_assoc]
      | some start =>
          have high : capacity ≤ count := by simpa using state.open_iff
          have opened : start ≤ now := state.opened start rfl
          simp only [saturated]
          by_cases fell : count + delta < capacity
          · have low : ¬ capacity ≤ count + delta := by omega
            have ended : Sweeping capacity (count + delta) none time := ⟨by simpa using low, by simp⟩
            have next := ih ended sortedRest ahead closesRest t
            rw [if_pos fell]
            by_cases proper : start < time
            · rw [if_pos proper, covered_cons, next]
              by_cases lt : t < time
              · have notLe : ¬ time ≤ t := not_le.mpr lt
                by_cases past : t < now
                · simp [lt, notLe, past, not_le.mpr past]
                · have le : now ≤ t := not_lt.mp past
                  simp [lt, notLe, past, le, pending lt, high, opened.trans le]
              · have le : time ≤ t := not_lt.mp lt
                have notPast : ¬ t < now := not_lt.mpr (nowLe.trans le)
                simp [lt, le, notPast, nowLe.trans le, add_assoc]
            · have same : time = now := le_antisymm ((not_lt.mp proper).trans opened) nowLe
              have startNow : start = now := le_antisymm opened (same ▸ not_lt.mp proper)
              subst same
              subst startNow
              rw [if_neg proper, next]
              by_cases lt : t < start
              · simp [lt, not_le.mpr lt]
              · simp [lt, not_lt.mp lt, add_assoc]
          · have stays : capacity ≤ count + delta := by omega
            have runs : Sweeping capacity (count + delta) (some start) time :=
              ⟨by simpa using stays, fun s hs => by
                cases hs
                exact opened.trans nowLe⟩
            rw [if_neg fell, ih runs sortedRest ahead closesRest]
            by_cases lt : t < time
            · have notLe : ¬ time ≤ t := not_le.mpr lt
              by_cases past : t < now
              · simp [lt, notLe, past, not_le.mpr past]
              · have le : now ≤ t := not_lt.mp past
                simp [lt, notLe, past, le, pending lt, high, opened.trans le]
            · have le : time ≤ t := not_lt.mp lt
              have notPast : ¬ t < now := not_lt.mpr (nowLe.trans le)
              simp [lt, le, notPast, nowLe.trans le, add_assoc]

theorem before_byTime {points : List (τ × Int)} (sorted : points.Pairwise Before) :
    points.Pairwise fun a b => a.1 ≤ b.1 :=
  sorted.imp fun before => before.elim le_of_lt fun same => same.1.le

/-- The runs a whole sweep reports cover exactly the instants at which at least
    `capacity` intervals are open. -/
theorem covered_saturated_endpoints {capacity : Int} (positive : 0 < capacity)
    {spans : List (τ × τ)} (proper : ∀ s ∈ spans, s.1 < s.2) (t : τ) :
    Covered (saturated capacity ((endpoints spans).insertionSort Before) 0 none) t ↔
      capacity ≤ occupancy spans t := by
  have permuted := List.perm_insertionSort Before (endpoints spans)
  have sorted := List.pairwise_insertionSort Before (endpoints spans)
  have atInstant := level_perm permuted t
  rw [level_endpoints proper] at atInstant
  have overall := total_perm permuted
  rw [total_endpoints] at overall
  generalize (endpoints spans).insertionSort Before = points at sorted atInstant overall
  cases points with
  | nil =>
      have : ¬ capacity ≤ (occupancy spans t : Int) := by
        rw [← atInstant]
        simpa [level] using positive
      simp [saturated, Covered, this]
  | cons p rest =>
      have byTime := before_byTime sorted
      have first : ∀ q ∈ p :: rest, p.1 ≤ q.1 := by
        intro q hq
        rcases List.mem_cons.mp hq with rfl | hq
        · exact le_rfl
        · exact (List.pairwise_cons.mp byTime).1 q hq
      have idle : Sweeping capacity 0 none p.1 := ⟨by simpa using positive, by simp⟩
      have closes : 0 + total (p :: rest) < capacity := by
        rw [overall]
        simpa using positive
      rw [covered_saturated idle byTime first closes, zero_add, atInstant]
      by_cases lt : t < p.1
      · have empty : level (p :: rest) t = 0 :=
          level_before fun q hq => lt_of_lt_of_le lt (first q hq)
        have : ¬ capacity ≤ (occupancy spans t : Int) := by
          rw [← atInstant, empty]
          exact not_le.mpr positive
        simp [this]
      · simp [not_lt.mp lt]

/-- Every run reported has a positive length. -/
theorem saturated_proper {capacity : Int} (points : List (τ × Int)) :
    ∀ (count : Int) (since : Option τ), ∀ s ∈ saturated capacity points count since, s.1 < s.2 := by
  induction points with
  | nil => intro count since s inside; cases inside
  | cons p rest ih =>
      obtain ⟨time, delta⟩ := p
      intro count since s inside
      cases since with
      | none =>
          simp only [saturated] at inside
          split at inside <;> exact ih _ _ s inside
      | some start =>
          simp only [saturated] at inside
          split at inside
          · split at inside
            · next lt =>
                rcases List.mem_cons.mp inside with rfl | later
                · exact lt
                · exact ih _ _ s later
            · exact ih _ _ s inside
          · exact ih _ _ s inside

/-- A run begins at the start of the open run or at one of the end points. -/
theorem saturated_after {capacity : Int} {low : τ} {points : List (τ × Int)} (later : ∀ p ∈ points, low ≤ p.1) :
    ∀ (count : Int) (since : Option τ), (∀ start ∈ since, low ≤ start) →
      ∀ s ∈ saturated capacity points count since, low ≤ s.1 := by
  induction points with
  | nil =>
      intro count since _ s inside
      cases inside
  | cons p rest ih =>
      obtain ⟨time, delta⟩ := p
      have first : low ≤ time := later _ List.mem_cons_self
      have idle := fun count => ih (fun q inRest => later q (List.mem_cons_of_mem _ inRest)) count none (by simp)
      intro count since opened s inside
      cases since with
      | none =>
          simp only [saturated] at inside
          split at inside
          · apply ih (fun q inRest => later q (List.mem_cons_of_mem _ inRest)) _ _ _ s inside
            simpa using first
          · exact idle _ s inside
      | some start =>
          simp only [saturated] at inside
          split at inside
          · split at inside
            · rcases List.mem_cons.mp inside with rfl | other
              · exact opened start rfl
              · exact idle _ s other
            · exact idle _ s inside
          · exact ih (fun q inRest => later q (List.mem_cons_of_mem _ inRest)) _ _ opened s inside

/-- No run begins before the one reported before it has ended. -/
theorem saturated_apart {capacity : Int} {points : List (τ × Int)} (sorted : points.Pairwise fun a b => a.1 ≤ b.1) :
    ∀ (count : Int) (since : Option τ), (saturated capacity points count since).Pairwise fun a b => a.2 ≤ b.1 := by
  induction points with
  | nil =>
      intro count since
      exact .nil
  | cons p rest ih =>
      obtain ⟨time, delta⟩ := p
      obtain ⟨ahead, sortedRest⟩ := List.pairwise_cons.mp sorted
      have next := ih sortedRest
      intro count since
      cases since with
      | none =>
          simp only [saturated]
          split <;> exact next _ _
      | some start =>
          simp only [saturated]
          split
          · split
            · exact .cons (saturated_after ahead _ none (by simp)) (next _ _)
            · exact next _ _
          · exact next _ _

/-- The runs are reported in the order of their starts. -/
theorem saturated_ordered {capacity : Int} {points : List (τ × Int)} (sorted : points.Pairwise fun a b => a.1 ≤ b.1)
    (count : Int) (since : Option τ) : (saturated capacity points count since).Pairwise fun a b => a.1 ≤ b.1 := by
  apply (saturated_apart sorted count since).imp_of_mem
  intro a b reported _ apart
  exact (saturated_proper points count since a reported).le.trans apart

/-! ## The running count -/

/-- Whether the count stays between zero and a limit after every end point. -/
def counted (limit : Int) : List (τ × Int) → Int → Bool
  | [], _ => true
  | p :: rest, count =>
      decide (0 ≤ count + p.2) && decide (count + p.2 ≤ limit) && counted limit rest (count + p.2)

omit [LinearOrder τ] in
theorem counted_iff {limit : Int} {points : List (τ × Int)} {count : Int} :
    counted limit points count = true ↔
      ∀ n, 0 < n → n ≤ points.length → 0 ≤ count + total (points.take n) ∧ count + total (points.take n) ≤ limit := by
  induction points generalizing count with
  | nil =>
      simp only [counted, List.length_nil, true_iff]
      intro n positive short
      omega
  | cons p rest ih =>
      simp only [counted, Bool.and_eq_true, decide_eq_true_eq, ih]
      constructor
      · rintro ⟨first, later⟩ n positive short
        obtain ⟨n, rfl⟩ : ∃ m, n = m + 1 := ⟨n - 1, by omega⟩
        rw [List.take_succ_cons, total, List.map_cons, List.sum_cons, ← add_assoc]
        by_cases done : n = 0
        · subst done
          simpa using first
        · exact later n (by omega) (by simpa using short)
      · intro each
        constructor
        · simpa [total] using each 1 (by omega) (by simp)
        · intro n positive short
          have next := each (n + 1) (by omega) (by simpa using short)
          rwa [List.take_succ_cons, total, List.map_cons, List.sum_cons, ← add_assoc] at next

omit [LinearOrder τ] in
/-- Openings count one and closings minus one, so the count is their difference. -/
theorem total_eq {points : List (τ × Int)} (signs : ∀ p ∈ points, p.2 = 1 ∨ p.2 = -1) :
    total points = (points.countP (·.2 = 1) : Int) - points.countP (·.2 = -1) := by
  induction points with
  | nil => rfl
  | cons p rest ih =>
      have later := ih fun q inRest => signs q (List.mem_cons_of_mem _ inRest)
      simp only [total, List.map_cons, List.sum_cons] at later ⊢
      rw [later, List.countP_cons, List.countP_cons]
      rcases signs p List.mem_cons_self with opening | closing
      · simp [opening]
        omega
      · simp [closing]
        omega

omit [LinearOrder τ] in
theorem endpoints_signs (spans : List (τ × τ)) : ∀ p ∈ endpoints spans, p.2 = 1 ∨ p.2 = -1 := by
  simp only [endpoints, List.mem_flatMap]
  rintro p ⟨s, _, inside⟩
  rcases List.mem_cons.mp inside with rfl | last
  · exact .inl rfl
  · rw [List.mem_singleton.mp last]
    exact .inr rfl

/-- The openings before an instant, and the closings up to it. -/
theorem endpoints_counts (spans : List (τ × τ)) (t : τ) :
    (endpoints spans).countP (fun p => decide (p.2 = 1) && decide (p.1 < t)) = spans.countP (fun s => decide (s.1 < t)) ∧
      (endpoints spans).countP (fun p => decide (p.2 = -1) && decide (p.1 ≤ t)) =
        spans.countP (fun s => decide (s.2 ≤ t)) := by
  induction spans with
  | nil => exact ⟨rfl, rfl⟩
  | cons s rest ih =>
      have unfolded : endpoints (s :: rest) = (s.1, 1) :: (s.2, -1) :: endpoints rest := rfl
      rw [unfolded]
      simp [List.countP_cons, ih.1, ih.2]

omit [LinearOrder τ] in
theorem endpoints_openings (spans : List (τ × τ)) : (endpoints spans).countP (·.2 = 1) = spans.length := by
  induction spans with
  | nil => rfl
  | cons s rest ih =>
      have unfolded : endpoints (s :: rest) = (s.1, 1) :: (s.2, -1) :: endpoints rest := rfl
      rw [unfolded]
      simp [ih]

/-- In a sweep every closing comes after its own opening, so the count never falls below
    zero, and it never passes the number of intervals. -/
theorem running_bounds {spans : List (τ × τ)} (proper : ∀ s ∈ spans, s.1 < s.2) {points : List (τ × Int)}
    (same : points.Perm (endpoints spans)) (sorted : points.Pairwise fun a b => a.1 ≤ b.1) (n : Nat) :
    0 ≤ total (points.take n) ∧ total (points.take n) ≤ spans.length := by
  have signs : ∀ p ∈ points.take n, p.2 = 1 ∨ p.2 = -1 := fun p early =>
    endpoints_signs spans p (same.mem_iff.mp (List.mem_of_mem_take early))
  have split : points.take n ++ points.drop n = points := List.take_append_drop n points
  rw [total_eq signs]
  constructor
  · -- The last end point taken separates the instants before it from those after.
    rcases List.eq_nil_or_concat (points.take n) with none | ⟨early, p, last⟩
    · rw [none]
      simp
    · rw [List.concat_eq_append] at last
      rw [← split, last] at sorted
      obtain ⟨before, _, after⟩ := List.pairwise_append.mp sorted
      have upTo : ∀ q ∈ points.take n, q.1 ≤ p.1 := by
        intro q inside
        rw [last] at inside
        rcases List.mem_append.mp inside with first | only
        · exact (List.pairwise_append.mp before).2.2 q first p List.mem_cons_self
        · rw [List.mem_singleton.mp only]
      have onward : ∀ q ∈ points.drop n, p.1 ≤ q.1 := fun q inside =>
        after p (List.mem_append_right _ List.mem_cons_self) q inside
      obtain ⟨openings, closings⟩ := endpoints_counts spans p.1
      rw [← same.countP_eq, ← split, List.countP_append] at openings closings
      have noneLater : (points.drop n).countP (fun q => decide (q.2 = 1) && decide (q.1 < p.1)) = 0 := by
        apply List.countP_eq_zero.mpr
        intro q inside
        simp [onward q inside]
      have opened : (points.take n).countP (fun q => decide (q.2 = 1) && decide (q.1 < p.1)) ≤
          (points.take n).countP (·.2 = 1) :=
        List.countP_mono_left fun q _ holds => ((Bool.and_eq_true _ _).mp holds).1
      have closed : (points.take n).countP (·.2 = -1) ≤
          (points.take n).countP (fun q => decide (q.2 = -1) && decide (q.1 ≤ p.1)) :=
        List.countP_mono_left fun q inside holds => by
          rw [Bool.and_eq_true]
          exact ⟨holds, decide_eq_true (upTo q inside)⟩
      have began : spans.countP (fun s => decide (s.2 ≤ p.1)) ≤ spans.countP (fun s => decide (s.1 < p.1)) :=
        List.countP_mono_left fun s inside ended =>
          decide_eq_true (lt_of_lt_of_le (proper s inside) (of_decide_eq_true ended))
      omega
  · have all : (points.take n).countP (·.2 = 1) ≤ points.countP (·.2 = 1) :=
      List.Sublist.countP_le (List.take_sublist n points)
    rw [same.countP_eq, endpoints_openings] at all
    omega

theorem counted_endpoints {limit : Nat} {spans : List (τ × τ)} (proper : ∀ s ∈ spans, s.1 < s.2)
    (few : spans.length ≤ limit) : counted limit ((endpoints spans).insertionSort Before) 0 = true := by
  apply counted_iff.mpr
  intro n _ _
  have bounds := running_bounds proper (List.perm_insertionSort Before (endpoints spans))
    (before_byTime (List.pairwise_insertionSort Before (endpoints spans))) n
  omega

end Lib.Sweep
