import Mathlib.Data.List.Basic

/-! # What every entry of a history satisfies, given the entries before it

A condition on an entry and its past holds throughout a history when every entry meets it in
its place. Histories are appended to, so everything reduces to what an append adds.
-/

namespace Lib.History

variable {α : Type} {P Q : List α → α → Prop} {xs ys : List α} {a : α}

/-- Every entry of the history satisfies the condition after the entries before it. -/
def Throughout (P : List α → α → Prop) (xs : List α) : Prop :=
  ∀ before a after, xs = before ++ a :: after → P before a

theorem Throughout.nil : Throughout P [] := by
  intro before a after same
  cases List.append_eq_nil_iff.mp same.symm |>.2

theorem throughout_cons : Throughout P (a :: xs) ↔ P [] a ∧ Throughout (fun before => P (a :: before)) xs := by
  constructor
  · intro all
    refine ⟨all [] a xs rfl, fun before b after same => all (a :: before) b after ?_⟩
    rw [same, List.cons_append]
  · rintro ⟨first, rest⟩ before b after same
    cases before with
    | nil =>
        cases same
        exact first
    | cons c before =>
        cases same
        exact rest before b after rfl

theorem throughout_append :
    Throughout P (xs ++ ys) ↔ Throughout P xs ∧ Throughout (fun before => P (xs ++ before)) ys := by
  induction xs generalizing P with
  | nil => exact ⟨fun all => ⟨.nil, all⟩, fun both => both.2⟩
  | cons a rest ih =>
      rw [List.cons_append, throughout_cons, throughout_cons, ih, and_assoc]
      exact Iff.rfl

theorem throughout_singleton : Throughout P [a] ↔ P [] a := by
  rw [throughout_cons]
  exact and_iff_left .nil

theorem throughout_concat : Throughout P (xs ++ [a]) ↔ Throughout P xs ∧ P xs a := by
  rw [throughout_append, throughout_singleton, List.append_nil]

theorem Throughout.mono (all : Throughout P xs) (weaker : ∀ before a, P before a → Q before a) : Throughout Q xs :=
  fun before a after same => weaker before a (all before a after same)

end Lib.History
