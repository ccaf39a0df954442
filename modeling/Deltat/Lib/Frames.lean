import Mathlib.Data.List.Basic

/-! # Cutting a sequence of encodings

Values are laid end to end by an encoding into lists. A cut at any length keeps some of them
whole and leaves at most a proper prefix of the next one.
-/

namespace Lib.Frames

variable {α β : Type} (encode : α → List β)

/-- The values whose encodings lie wholly within the first `n` elements. -/
def whole : List α → Nat → List α
  | [], _ => []
  | a :: rest, n => if (encode a).length ≤ n then a :: whole rest (n - (encode a).length) else []

/-- A proper prefix of the encoding of one of the values, or nothing. -/
def Torn (values : List α) (tail : List β) : Prop :=
  tail = [] ∨ ∃ a ∈ values, tail <+: encode a ∧ tail.length < (encode a).length

theorem take_flatMap (values : List α) (n : Nat) :
    ∃ tail, (values.flatMap encode).take n = (whole encode values n).flatMap encode ++ tail ∧
      Torn encode values tail := by
  induction values generalizing n with
  | nil => exact ⟨[], by simp [whole], .inl rfl⟩
  | cons a rest ih =>
      by_cases fits : (encode a).length ≤ n
      · obtain ⟨tail, cut, torn⟩ := ih (n - (encode a).length)
        refine ⟨tail, ?_, torn.imp id ?_⟩
        · rw [List.flatMap_cons, List.take_append, List.take_of_length_le fits, cut, whole, if_pos fits,
            List.flatMap_cons, List.append_assoc]
        · rintro ⟨b, inside, proper⟩
          exact ⟨b, List.mem_cons_of_mem a inside, proper⟩
      · have short : n < (encode a).length := Nat.lt_of_not_le fits
        refine ⟨(encode a).take n, ?_, .inr ⟨a, List.mem_cons_self, List.take_prefix n _, ?_⟩⟩
        · rw [List.flatMap_cons, List.take_append_of_le_length (Nat.le_of_lt short), whole, if_neg fits]
          rfl
        · rw [List.length_take]
          omega

theorem whole_prefix (values : List α) (n : Nat) : whole encode values n <+: values := by
  induction values generalizing n with
  | nil => exact List.prefix_rfl
  | cons a rest ih =>
      rw [whole]
      split
      · exact List.cons_prefix_cons.mpr ⟨rfl, ih _⟩
      · exact List.nil_prefix

/-- A cut at the end keeps everything. -/
theorem whole_all (values : List α) {n : Nat} (enough : (values.flatMap encode).length ≤ n) :
    whole encode values n = values := by
  induction values generalizing n with
  | nil => rfl
  | cons a rest ih =>
      rw [List.flatMap_cons, List.length_append] at enough
      rw [whole, if_pos (by omega), ih (by omega)]

/-- A cut behind some of the values keeps them and cuts the others. -/
theorem whole_append (before after : List α) {n : Nat} (enough : (before.flatMap encode).length ≤ n) :
    whole encode (before ++ after) n = before ++ whole encode after (n - (before.flatMap encode).length) := by
  induction before generalizing n with
  | nil => rfl
  | cons a rest ih =>
      rw [List.flatMap_cons, List.length_append] at enough
      rw [List.cons_append, whole, if_pos (by omega), ih (by omega), List.flatMap_cons, List.length_append,
        Nat.sub_add_eq, List.cons_append]

end Lib.Frames
