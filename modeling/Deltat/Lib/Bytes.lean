import Mathlib.Data.List.Basic
import Mathlib.Tactic.Ring
import Mathlib.Tactic.NormNum

/-! # Fixed-width numbers and exact reads

Little-endian numbers as lists of bytes, and a reader that either takes the next `n` bytes
or reports that fewer are left.
-/

namespace Lib.Bytes

/-! ## Little-endian numbers -/

/-- The `width` low bytes of a number, least significant first. -/
def le : Nat → Nat → List UInt8
  | 0, _ => []
  | width + 1, n => UInt8.ofNat n :: le width (n / 256)

/-- The number that little-endian bytes stand for. -/
def ofLe : List UInt8 → Nat
  | [] => 0
  | b :: rest => b.toNat + 256 * ofLe rest

@[simp] theorem length_le (width n : Nat) : (le width n).length = width := by
  induction width generalizing n with
  | zero => rfl
  | succ width ih => simp only [le, List.length_cons, ih]

theorem ofLe_le (width n : Nat) : ofLe (le width n) = n % 256 ^ width := by
  induction width generalizing n with
  | zero => simp [le, ofLe, Nat.mod_one]
  | succ width ih =>
      have low : (UInt8.ofNat n).toNat = n % 256 := rfl
      rw [le, ofLe, ih, low, pow_succ', Nat.mod_mul]

theorem ofLe_le_of_lt {width n : Nat} (fits : n < 256 ^ width) : ofLe (le width n) = n := by
  rw [ofLe_le, Nat.mod_eq_of_lt fits]

/-! ## Exact reads -/

/-- The next `n` bytes and what follows them, or none at the end of the input. -/
def readExact (n : Nat) (bytes : List UInt8) : Option (List UInt8 × List UInt8) :=
  if bytes.length < n then none else some (bytes.take n, bytes.drop n)

theorem readExact_append {n : Nat} {bytes : List UInt8} (length : bytes.length = n) (rest : List UInt8) :
    readExact n (bytes ++ rest) = some (bytes, rest) := by
  subst length
  simp [readExact]

theorem readExact_none {n : Nat} {bytes : List UInt8} : readExact n bytes = none ↔ bytes.length < n := by
  simp [readExact]

theorem readExact_some {n : Nat} {bytes first rest : List UInt8} :
    readExact n bytes = some (first, rest) ↔ bytes = first ++ rest ∧ first.length = n := by
  constructor
  · intro read
    unfold readExact at read
    split at read
    · cases read
    · next enough =>
        obtain ⟨rfl, rfl⟩ := Prod.mk.inj (Option.some.inj read)
        exact ⟨(List.take_append_drop n bytes).symm, List.length_take_of_le (Nat.le_of_not_lt enough)⟩
  · rintro ⟨rfl, length⟩
    exact readExact_append length rest

/-- Reading from a cut of `first ++ next` either finds the end or takes all of `first`. -/
theorem readExact_cut {n : Nat} {tail first next : List UInt8} (cut : tail <+: first ++ next)
    (length : first.length = n) :
    readExact n tail = none ∨
      ∃ tail', tail = first ++ tail' ∧ tail' <+: next ∧ readExact n tail = some (first, tail') := by
  rcases Nat.lt_or_ge tail.length n with short | enough
  · exact .inl (readExact_none.mpr short)
  · obtain ⟨tail', rfl⟩ : first <+: tail :=
      List.prefix_of_prefix_length_le (List.prefix_append first next) cut (length ▸ enough)
    exact .inr ⟨tail', rfl, (List.prefix_append_right_inj first).mp cut, readExact_append length tail'⟩

end Lib.Bytes
