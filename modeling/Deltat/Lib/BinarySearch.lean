import Mathlib.Data.List.Sort
import Mathlib.Tactic

/-! # Binary search over a list

The search loop of a slice's `binary_search_by`: it halves a window while keeping the
last index whose element does not compare greater. When several elements compare equal
the index found is the last of them, one of the answers the interface allows.
-/

namespace Lib.BinarySearch

variable {α : Type*}

/-- Halve the window `[base, base + size)` until at most one element is left.
    The first argument bounds the number of halvings. -/
def base (cmp : α → Ordering) (xs : List α) : Nat → Nat → Nat → Nat
  | 0, _, start => start
  | fuel + 1, size, start =>
      if size ≤ 1 then start
      else
        let half := size / 2
        let mid := start + half
        let next := match xs[mid]? with
          | some x => if cmp x = .gt then start else mid
          | none => start
        base cmp xs fuel (size - half) next

/-- `Ok` of an index that compares equal, or `Err` of the index at which an equal
    element could be inserted. -/
def searchBy (cmp : α → Ordering) (xs : List α) : Except Nat Nat :=
  let start := base cmp xs xs.length xs.length 0
  match xs[start]? with
  | none => .error 0
  | some x =>
      match cmp x with
      | .eq => .ok start
      | .lt => .error (start + 1)
      | .gt => .error start

/-- The index either answer of a search carries. -/
def position (answer : Except Nat Nat) : Nat :=
  match answer with
  | .ok index => index
  | .error index => index

/-- The number of leading elements that satisfy `p`, found by binary search. -/
def partitionPoint (p : α → Bool) (xs : List α) : Nat :=
  position (searchBy (fun x => if p x then .lt else .gt) xs)

/-- Insert at the index a search answers with. -/
def insertAt (xs : List α) (index : Nat) (x : α) : List α :=
  xs.take index ++ x :: xs.drop index

/-- The elements that compare greater form a suffix. -/
def GreaterLast (cmp : α → Ordering) (xs : List α) : Prop :=
  xs.Pairwise fun a b => cmp a = .gt → cmp b = .gt

/-- The elements that compare less form a prefix. -/
def LessFirst (cmp : α → Ordering) (xs : List α) : Prop :=
  xs.Pairwise fun a b => cmp b = .lt → cmp a = .lt

/-- What the loop keeps: nothing at `start` compares greater unless `start` is the first
    index, and everything from the window's end on does. -/
structure Window (cmp : α → Ordering) (xs : List α) (size start : Nat) : Prop where
  inside : start + size ≤ xs.length
  below : start = 0 ∨ ∃ x, xs[start]? = some x ∧ cmp x ≠ .gt
  above : ∀ i x, start + size ≤ i → xs[i]? = some x → cmp x = .gt

theorem GreaterLast.after {cmp : α → Ordering} {xs : List α} (sorted : GreaterLast cmp xs)
    {i j : Nat} {x y : α} (hi : xs[i]? = some x) (hj : xs[j]? = some y) (le : i ≤ j)
    (greater : cmp x = .gt) : cmp y = .gt := by
  rcases Nat.eq_or_lt_of_le le with rfl | lt
  · rw [hi] at hj
    exact Option.some.inj hj ▸ greater
  · obtain ⟨hi', rfl⟩ := List.getElem?_eq_some_iff.mp hi
    obtain ⟨hj', rfl⟩ := List.getElem?_eq_some_iff.mp hj
    exact List.pairwise_iff_getElem.mp sorted i j hi' hj' lt greater

theorem LessFirst.before {cmp : α → Ordering} {xs : List α} (sorted : LessFirst cmp xs)
    {i j : Nat} {x y : α} (hi : xs[i]? = some x) (hj : xs[j]? = some y) (le : i ≤ j)
    (less : cmp y = .lt) : cmp x = .lt := by
  rcases Nat.eq_or_lt_of_le le with rfl | lt
  · rw [hi] at hj
    exact Option.some.inj hj ▸ less
  · obtain ⟨hi', rfl⟩ := List.getElem?_eq_some_iff.mp hi
    obtain ⟨hj', rfl⟩ := List.getElem?_eq_some_iff.mp hj
    exact List.pairwise_iff_getElem.mp sorted i j hi' hj' lt less

theorem Window.halve {cmp : α → Ordering} {xs : List α} {size start : Nat}
    (sorted : GreaterLast cmp xs) (w : Window cmp xs size start) (large : 1 < size) :
    Window cmp xs (size - size / 2)
      (match xs[start + size / 2]? with
        | some x => if cmp x = .gt then start else start + size / 2
        | none => start) := by
  have inside := w.inside
  have inWindow : start + size / 2 < xs.length := by omega
  have found : xs[start + size / 2]? = some xs[start + size / 2] := List.getElem?_eq_getElem inWindow
  simp only [found]
  by_cases greater : cmp xs[start + size / 2] = .gt
  · rw [if_pos greater]
    refine ⟨by omega, w.below, fun i x le hx => ?_⟩
    exact sorted.after found hx (by omega) greater
  · rw [if_neg greater]
    refine ⟨by omega, .inr ⟨_, found, greater⟩, fun i x le hx => ?_⟩
    exact w.above i x (by omega) hx

theorem Window.base {cmp : α → Ordering} {xs : List α} (sorted : GreaterLast cmp xs) :
    ∀ {fuel size start}, size ≤ fuel → Window cmp xs size start → 0 < size →
      Window cmp xs 1 (base cmp xs fuel size start) := by
  intro fuel
  induction fuel with
  | zero => intro size start le _ pos; omega
  | succ fuel ih =>
      intro size start le w pos
      simp only [BinarySearch.base]
      by_cases small : size ≤ 1
      · have one : size = 1 := by omega
        subst one
        simpa using w
      · rw [if_neg small]
        exact ih (by omega) (w.halve sorted (by omega)) (by omega)

/-- The index a search answers with separates the elements that do not compare greater
    from those that do not compare less. -/
theorem position_separates {cmp : α → Ordering} {xs : List α}
    (greaterLast : GreaterLast cmp xs) (lessFirst : LessFirst cmp xs) :
    position (searchBy cmp xs) ≤ xs.length ∧
    (∀ i x, i < position (searchBy cmp xs) → xs[i]? = some x → cmp x ≠ .gt) ∧
    (∀ i x, position (searchBy cmp xs) ≤ i → xs[i]? = some x → cmp x ≠ .lt) := by
  cases xs with
  | nil => simp [searchBy, position]
  | cons head tail =>
      have full : Window cmp (head :: tail) (head :: tail).length 0 :=
        ⟨by omega, .inl rfl, fun i x le hx => by
          have := (List.getElem?_eq_some_iff.mp hx).1
          omega⟩
      have w := full.base greaterLast le_rfl (by simp)
      generalize hstart : BinarySearch.base cmp (head :: tail) (head :: tail).length
        (head :: tail).length 0 = start at w
      have inside := w.inside
      have found : (head :: tail)[start]? = some (head :: tail)[start] :=
        List.getElem?_eq_getElem (by omega)
      have upTo : cmp (head :: tail)[start] ≠ .gt →
          ∀ i x, i ≤ start → (head :: tail)[i]? = some x → cmp x ≠ .gt := by
        intro notGreater i x le hx greater
        exact notGreater (greaterLast.after hx found le greater)
      have beyond : ∀ i x, start < i → (head :: tail)[i]? = some x → cmp x ≠ .lt := by
        intro i x lt hx less
        rw [w.above i x (by omega) hx] at less
        cases less
      simp only [searchBy, hstart, found]
      cases order : cmp (head :: tail)[start] with
      | lt =>
          refine ⟨by simp only [position]; omega, fun i x lt hx => ?_, fun i x le hx => ?_⟩
          · exact upTo (by simp [order]) i x (by simp only [position] at lt; omega) hx
          · exact beyond i x (by simp only [position] at le; omega) hx
      | eq =>
          refine ⟨by simp only [position]; omega, fun i x lt hx => ?_, fun i x le hx => ?_⟩
          · exact upTo (by simp [order]) i x (by simp only [position] at lt; omega) hx
          · rcases Nat.eq_or_lt_of_le le with same | lt
            · simp only [position] at same
              subst same
              rw [found] at hx
              rw [← Option.some.inj hx, order]
              decide
            · exact beyond i x lt hx
      | gt =>
          have first : start = 0 := by
            rcases w.below with zero | ⟨x, hx, notGreater⟩
            · exact zero
            · rw [found] at hx
              exact (notGreater (Option.some.inj hx ▸ order)).elim
          subst first
          refine ⟨by simp [position], fun i x lt hx => by simp [position] at lt, fun i x le hx less => ?_⟩
          have head := lessFirst.before found hx (Nat.zero_le i) less
          rw [order] at head
          cases head

/-- An index with nothing in front of it that compares greater and nothing behind it that compares
    less. Among elements that compare equal it may lie anywhere. -/
structure Separates (cmp : α → Ordering) (xs : List α) (index : Nat) : Prop where
  inside : index ≤ xs.length
  before : ∀ x ∈ xs.take index, cmp x ≠ .gt
  after : ∀ x ∈ xs.drop index, cmp x ≠ .lt

theorem searchBy_separates {cmp : α → Ordering} {xs : List α}
    (greaterLast : GreaterLast cmp xs) (lessFirst : LessFirst cmp xs) :
    Separates cmp xs (position (searchBy cmp xs)) := by
  obtain ⟨inside, below, above⟩ := position_separates greaterLast lessFirst
  refine ⟨inside, fun x early => ?_, fun x late => ?_⟩
  · obtain ⟨i, hi, rfl⟩ := List.mem_take_iff_getElem.mp early
    exact below i _ (by omega) (List.getElem?_eq_getElem (by omega))
  · obtain ⟨i, hi, rfl⟩ := List.mem_drop_iff_getElem.mp late
    rw [Nat.add_comm] at hi
    exact above _ _ (Nat.le_add_right _ i) (List.getElem?_eq_getElem hi)

section Partition

variable {p : α → Bool} {xs : List α}

/-- On a list whose `p` elements come first, the partition point counts them. -/
theorem take_partitionPoint (antitone : xs.Pairwise fun a b => p b → p a) :
    xs.take (partitionPoint p xs) = xs.filter p := by
  have greater : GreaterLast (fun x => if p x then Ordering.lt else .gt) xs := by
    refine antitone.imp fun {a b} h => ?_
    cases hb : p b <;> cases ha : p a <;> simp_all
  have less : LessFirst (fun x => if p x then Ordering.lt else .gt) xs := by
    refine antitone.imp fun {a b} h => ?_
    cases hb : p b <;> cases ha : p a <;> simp_all
  obtain ⟨_, before, after⟩ := searchBy_separates greater less
  conv_rhs => rw [← List.take_append_drop (partitionPoint p xs) xs]
  rw [List.filter_append]
  have kept : (xs.take (partitionPoint p xs)).filter p = xs.take (partitionPoint p xs) := by
    rw [List.filter_eq_self]
    intro x early
    have notGreater := before x early
    by_contra no
    simp [no] at notGreater
  have dropped : (xs.drop (partitionPoint p xs)).filter p = [] := by
    rw [List.filter_eq_nil_iff]
    intro x late yes
    exact after x late (by simp [yes])
  rw [kept, dropped, List.append_nil]

end Partition

section Insert

variable {β : Type*} [LinearOrder β] {key : α → β} {xs : List α}

theorem insertAt_perm (xs : List α) (index : Nat) (x : α) : (insertAt xs index x).Perm (x :: xs) := by
  simp only [insertAt]
  have middle : (xs.take index ++ x :: xs.drop index).Perm (x :: (xs.take index ++ xs.drop index)) :=
    List.perm_middle
  rwa [List.take_append_drop] at middle

/-- An element inserted anywhere among those with its key keeps the list sorted. -/
theorem Separates.insertAt_sorted {x : α} {index : Nat} (lands : Separates (fun y => compare (key y) (key x)) xs index)
    (sorted : xs.Pairwise fun a b => key a ≤ key b) : (insertAt xs index x).Pairwise fun a b => key a ≤ key b := by
  have lower : ∀ a ∈ xs.take index, key a ≤ key x := by
    intro a early
    have notGreater := lands.before a early
    rwa [ne_eq, compare_gt_iff_gt, not_lt] at notGreater
  have upper : ∀ b ∈ xs.drop index, key x ≤ key b := by
    intro b late
    have notLess := lands.after b late
    rwa [ne_eq, compare_lt_iff_lt, not_lt] at notLess
  rw [insertAt, List.pairwise_append, List.pairwise_cons]
  refine ⟨sorted.sublist (List.take_sublist _ _), ⟨upper, sorted.sublist (List.drop_sublist _ _)⟩, ?_⟩
  intro a ha b hb
  rcases List.mem_cons.mp hb with rfl | hb
  · exact lower a ha
  · exact (lower a ha).trans (upper b hb)

/-- The search of a sorted list for a key ends among the elements that have it. -/
theorem searchBy_lands (x : α) (sorted : xs.Pairwise fun a b => key a ≤ key b) :
    Separates (fun y => compare (key y) (key x)) xs (position (searchBy (fun y => compare (key y) (key x)) xs)) := by
  apply searchBy_separates
  · refine sorted.imp fun {a b} le h => ?_
    rw [compare_gt_iff_gt] at h ⊢
    exact lt_of_lt_of_le h le
  · refine sorted.imp fun {a b} le h => ?_
    rw [compare_lt_iff_lt] at h ⊢
    exact lt_of_le_of_lt le h

/-- Inserting where a search for the element's own key ends keeps the list sorted. -/
theorem insertAt_sorted (x : α) (sorted : xs.Pairwise fun a b => key a ≤ key b) :
    (insertAt xs (position (searchBy (fun y => compare (key y) (key x)) xs)) x).Pairwise
      fun a b => key a ≤ key b := (searchBy_lands x sorted).insertAt_sorted sorted

end Insert

section Mapped

variable {β : Type*} (f : β → α) (xs : List β)

theorem base_map (cmp : α → Ordering) (fuel size start : Nat) :
    base cmp (xs.map f) fuel size start = base (fun x => cmp (f x)) xs fuel size start := by
  induction fuel generalizing size start with
  | zero => rfl
  | succ fuel ih =>
      simp only [base, ih, List.getElem?_map]
      cases xs[start + size / 2]? <;> rfl

theorem searchBy_map (cmp : α → Ordering) : searchBy cmp (xs.map f) = searchBy (fun x => cmp (f x)) xs := by
  simp only [searchBy, List.length_map, base_map, List.getElem?_map]
  cases xs[base (fun x => cmp (f x)) xs xs.length xs.length 0]? <;> rfl

theorem partitionPoint_map (p : α → Bool) : partitionPoint p (xs.map f) = partitionPoint (fun x => p (f x)) xs := by
  rw [partitionPoint, searchBy_map, partitionPoint]

theorem insertAt_map (index : Nat) (x : β) : insertAt (xs.map f) index (f x) = (insertAt xs index x).map f := by
  simp [insertAt]

end Mapped

end Lib.BinarySearch
