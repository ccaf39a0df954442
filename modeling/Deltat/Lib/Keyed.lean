import Deltat.Lib.BinarySearch
import Mathlib.Data.List.Perm.Basic

/-! # Elements under a key

A list of keyed elements seen one key at a time. Removing the first element under a key and
inserting an element change the list under that one key only, and two lists that agree under
every key have the same elements.
-/

namespace Lib.Keyed

variable {α κ : Type} [DecidableEq κ] (key : α → κ) {x y : κ}

/-- The elements under a key, in order. -/
def withKey (x : κ) (xs : List α) : List α := xs.filter fun a => key a = x

theorem mem_withKey {a : α} {xs : List α} : a ∈ withKey key x xs ↔ a ∈ xs ∧ key a = x := by
  simp [withKey]

theorem withKey_erase_same (xs : List α) :
    withKey key x (xs.eraseP fun a => key a = x) = (withKey key x xs).tail := by
  induction xs with
  | nil => rfl
  | cons a rest ih =>
      unfold withKey at ih ⊢
      by_cases found : key a = x <;> simp [found, ih]

theorem withKey_erase_other (apart : x ≠ y) (xs : List α) :
    withKey key x (xs.eraseP fun a => key a = y) = withKey key x xs := by
  induction xs with
  | nil => rfl
  | cons a rest ih =>
      unfold withKey at ih ⊢
      by_cases found : key a = y
      · simp [found, Ne.symm apart]
      · simp [found, List.filter_cons, ih]

theorem withKey_insertAt_other {a : α} (apart : key a ≠ x) (xs : List α) (index : Nat) :
    withKey key x (BinarySearch.insertAt xs index a) = withKey key x xs := by
  unfold withKey BinarySearch.insertAt
  rw [List.filter_append, List.filter_cons_of_neg (by simpa using apart), ← List.filter_append,
    List.take_append_drop]

theorem withKey_insertAt_same {a : α} (xs : List α) (index : Nat) :
    (withKey key (key a) (BinarySearch.insertAt xs index a)).Perm (a :: withKey key (key a) xs) := by
  have perm := (BinarySearch.insertAt_perm xs index a).filter fun b => key b = key a
  rwa [List.filter_cons_of_pos (by simp)] at perm

theorem count_withKey [DecidableEq α] (xs : List α) (a : α) : (withKey key (key a) xs).count a = xs.count a :=
  List.count_filter (by simp)

/-- Lists that agree under every key have the same elements. -/
theorem perm_of_withKey [DecidableEq α] {xs ys : List α}
    (same : ∀ x, (withKey key x xs).Perm (withKey key x ys)) : xs.Perm ys := by
  refine List.perm_iff_count.mpr fun a => ?_
  rw [← count_withKey key xs a, ← count_withKey key ys a]
  exact (same (key a)).count_eq a

end Lib.Keyed
