import Mathlib.Logic.Relation
import Mathlib.Order.Basic

/-! # Relations without cycles

Each node of a cycle is entered as well as left, so only edges from nodes that are entered
matter for whether a relation has one.
-/

namespace Lib.Cycles

open Relation

variable {α : Type} {r r' : α → α → Prop} {a : α}

/-- No node is above itself. -/
def Acyclic (r : α → α → Prop) : Prop := ∀ a, ¬ TransGen r a a

theorem entered_of_path {b : α} (path : TransGen r a b) : ∃ z, r z b := by
  cases path with
  | single edge => exact ⟨_, edge⟩
  | tail _ edge => exact ⟨_, edge⟩

/-- A cycle stays when the edges from entered nodes do. -/
theorem cycle_carried (kept : ∀ a b, r a b → (∃ z, r z a) → r' a b) (cycle : TransGen r a a) : TransGen r' a a := by
  have start := entered_of_path cycle
  have path : ∀ b, TransGen r a b → TransGen r' a b := by
    intro b path
    induction path with
    | single edge => exact .single (kept _ _ edge start)
    | tail before edge ih => exact .tail ih (kept _ _ edge (entered_of_path before))
  exact path a cycle

theorem Acyclic.carried (acyclic : Acyclic r') (kept : ∀ a b, r a b → (∃ z, r z a) → r' a b) : Acyclic r :=
  fun a cycle => acyclic a (cycle_carried kept cycle)

/-- Relations with the same edges from entered nodes have a cycle together. -/
theorem acyclic_iff (kept : ∀ a b, r a b → (∃ z, r z a) → r' a b) (kept' : ∀ a b, r' a b → (∃ z, r' z a) → r a b) :
    Acyclic r ↔ Acyclic r' := ⟨fun acyclic => acyclic.carried kept', fun acyclic => acyclic.carried kept⟩

/-- What rises along every edge between nodes of a cycle cannot come back. -/
theorem acyclic_of_key {β : Type} [Preorder β] (key : α → β)
    (rises : ∀ z a b c, r z a → r a b → r b c → key a < key b) : Acyclic r := by
  intro a cycle
  obtain ⟨z, start⟩ := entered_of_path cycle
  have along : ∀ b, TransGen r a b → ∀ c, r b c → key a < key b := by
    intro b path
    induction path with
    | single edge => exact fun c next => rises z a _ c start edge next
    | tail before edge ih =>
        obtain ⟨y, into⟩ := entered_of_path before
        exact fun c next => (ih _ edge).trans (rises y _ _ c into edge next)
  obtain ⟨b, next, _⟩ := TransGen.head'_iff.mp cycle
  exact lt_irrefl _ (along a cycle b next)

end Lib.Cycles
