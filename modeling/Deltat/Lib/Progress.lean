import Deltat.Lib.Machine
import Mathlib

/-! # Machines that come to rest

A machine whose every step of a kind takes from a well-founded amount of work has no endless run of
such steps. Waiters of whom each waits for one of a higher rank are not there at all, when they are
finitely many.
-/

namespace Lib.Machine

variable {σ α W : Type} {step : σ → α → Option σ} {allowed : σ → α → Prop} {s : σ}

/-- A run that goes on forever. -/
def Endless (step : σ → α → Option σ) (allowed : σ → α → Prop) (s : σ) : Prop :=
  ∃ states : Nat → σ, ∃ actions : Nat → α, states 0 = s ∧
    ∀ n, allowed (states n) (actions n) ∧ step (states n) (actions n) = some (states (n + 1))

/-- Whether every allowed step keeps an invariant and leaves less to do. -/
structure Works [Preorder W] (step : σ → α → Option σ) (allowed : σ → α → Prop) (I : σ → Prop) (left : σ → W) : Prop where
  keeps : ∀ s a s', I s → allowed s a → step s a = some s' → I s'
  lowers : ∀ s a s', I s → allowed s a → step s a = some s' → left s' < left s

theorem Works.not_endless [Preorder W] [WellFoundedLT W] {I : σ → Prop} {left : σ → W}
    (works : Works step allowed I left) (inv : I s) : ¬ Endless step allowed s := by
  intro endless
  obtain ⟨states, actions, same, taken⟩ := endless
  have inside : ∀ n, I (states n) := by
    intro n
    induction n with
    | zero => exact same ▸ inv
    | succ n ih => exact works.keeps _ _ _ ih (taken n).1 (taken n).2
  apply not_strictAnti_of_wellFoundedLT (fun n => left (states n))
  apply strictAnti_nat_of_succ_lt
  intro n
  exact works.lowers _ _ _ (inside n) (taken n).1 (taken n).2

/-- Nobody waits when whoever does waits for one of a higher rank. -/
theorem nobody_waits {R : Type} [LinearOrder R] (waits : Nat → Prop) (rank : Nat → R) (n : Nat)
    (few : ∀ i, waits i → i < n) (higher : ∀ i, waits i → ∃ j, waits j ∧ rank i < rank j) (i : Nat) : ¬ waits i := by
  intro waiting
  classical
  have some : ((Finset.range n).filter waits).Nonempty := ⟨i, by simpa using ⟨few i waiting, waiting⟩⟩
  obtain ⟨last, inside, above⟩ := Finset.exists_max_image _ rank some
  obtain ⟨j, waiting', beyond⟩ := higher last (Finset.mem_filter.mp inside).2
  have below : rank j ≤ rank last := above j (by simpa using ⟨few j waiting', waiting'⟩)
  exact absurd beyond below.not_gt

/-- What finitely many measure together when only one of them moves. -/
theorem sum_one_moved {ι : Type} [DecidableEq ι] {all : Finset ι} {f g : ι → Nat} {i : ι} (inside : i ∈ all)
    (others : ∀ j, j ≠ i → f j = g j) : (∑ j ∈ all, f j) + g i = (∑ j ∈ all, g j) + f i := by
  have same : ∑ j ∈ all.erase i, f j = ∑ j ∈ all.erase i, g j :=
    Finset.sum_congr rfl fun j apart => others j (Finset.ne_of_mem_erase apart)
  have first := Finset.add_sum_erase all f inside
  have second := Finset.add_sum_erase all g inside
  omega

end Lib.Machine
