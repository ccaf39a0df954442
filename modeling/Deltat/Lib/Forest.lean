import Deltat.Lib.Cycles
import Mathlib.Logic.Function.Basic

/-! # Forests by their parents

Every node is a root or has one parent. Where each node has so many ancestors at most, all of
them nodes, nothing is above itself. A new node under a parent that is not too deep and the
removal of a leaf keep the bound.
-/

namespace Lib.Forest

open Relation

variable {α : Type} {up up' : α → Option (Option α)} {limit n : Nat} {a b p : α}

/-- A node and the number of its ancestors, all of them nodes. -/
inductive Depth (up : α → Option (Option α)) : α → Nat → Prop
  | root {a : α} (top : up a = some none) : Depth up a 0
  | under {a p : α} {n : Nat} (child : up a = some (some p)) (above : Depth up p n) : Depth up a (n + 1)

/-- Every node has at most so many ancestors. -/
def Bounded (limit : Nat) (up : α → Option (Option α)) : Prop := ∀ a, (up a).isSome → ∃ n ≤ limit, Depth up a n

theorem Depth.node (depth : Depth up a n) : (up a).isSome := by
  cases depth with
  | root top => rw [top]; rfl
  | under child => rw [child]; rfl

theorem Depth.parent (depth : Depth up a n) (child : up a = some (some p)) : ∃ m < n, Depth up p m := by
  cases depth with
  | root top => cases top.symm.trans child
  | under child' above =>
      cases child'.symm.trans child
      exact ⟨_, Nat.lt_succ_self _, above⟩

theorem Depth.unique {m : Nat} (depth : Depth up a n) (depth' : Depth up a m) : n = m := by
  induction depth generalizing m with
  | root top =>
      cases depth' with
      | root => rfl
      | under child => cases top.symm.trans child
  | under child _ ih =>
      cases depth' with
      | root top => cases top.symm.trans child
      | under child' above =>
          cases child.symm.trans child'
          exact congrArg Nat.succ (ih above)

/-- Whatever is above a node has fewer ancestors. -/
theorem Depth.above (depth : Depth up a n) (path : TransGen (fun a p => up a = some (some p)) a b) :
    ∃ m < n, Depth up b m := by
  induction path with
  | single child => exact depth.parent child
  | tail _ child ih =>
      obtain ⟨m, less, depth'⟩ := ih
      obtain ⟨k, less', depth''⟩ := depth'.parent child
      exact ⟨k, Nat.lt_trans less' less, depth''⟩

theorem Bounded.parent (bounded : Bounded limit up) (child : up a = some (some p)) : (up p).isSome := by
  obtain ⟨n, _, depth⟩ := bounded a (by rw [child]; rfl)
  obtain ⟨_, _, above⟩ := depth.parent child
  exact above.node

theorem Bounded.acyclic (bounded : Bounded limit up) : Cycles.Acyclic fun a p => up a = some (some p) := by
  intro a cycle
  obtain ⟨p, child⟩ : ∃ p, up a = some (some p) := by
    obtain ⟨p, child, _⟩ := TransGen.head'_iff.mp cycle
    exact ⟨p, child⟩
  obtain ⟨n, _, depth⟩ := bounded a (by rw [child]; rfl)
  obtain ⟨m, less, depth'⟩ := depth.above cycle
  exact absurd (depth.unique depth') (Nat.ne_of_gt less)

/-- Ancestors stay ancestors where no node of the old forest is moved. -/
theorem Depth.carried (depth : Depth up a n) (kept : ∀ x, (up x).isSome → up' x = up x) : Depth up' a n := by
  induction depth with
  | root top => exact .root ((kept _ (by rw [top]; rfl)).trans top)
  | under child _ ih => exact .under ((kept _ (by rw [child]; rfl)).trans child) ih

section Update

variable [DecidableEq α]

/-- A new node, a root or under a node with room for one more below it. -/
theorem Bounded.insert (bounded : Bounded limit up) (absent : up a = none) {parent : Option α}
    (room : ∀ p, parent = some p → ∃ n < limit, Depth up p n) :
    Bounded limit (Function.update up a (some parent)) := by
  have kept : ∀ x, (up x).isSome → Function.update up a (some parent) x = up x := by
    intro x node
    apply Function.update_of_ne
    rintro rfl
    rw [absent] at node
    cases node
  intro x node
  by_cases new : x = a
  · subst new
    cases parent with
    | none => exact ⟨0, Nat.zero_le _, .root (Function.update_self ..)⟩
    | some p =>
        obtain ⟨n, less, depth⟩ := room p rfl
        exact ⟨n + 1, less, .under (Function.update_self ..) (depth.carried kept)⟩
  · rw [Function.update_of_ne new] at node
    obtain ⟨n, within, depth⟩ := bounded x node
    exact ⟨n, within, depth.carried kept⟩

/-- A node without children goes. -/
theorem Bounded.erase (bounded : Bounded limit up) (leaf : ∀ x, up x ≠ some (some a)) :
    Bounded limit (Function.update up a none) := by
  have still : ∀ {x : α} {n : Nat}, Depth up x n → x ≠ a → Depth (Function.update up a none) x n := by
    intro x n depth
    induction depth with
    | root top => exact fun other => .root ((Function.update_of_ne other ..).trans top)
    | @under x p n child _ ih =>
        intro other
        refine .under ((Function.update_of_ne other ..).trans child) (ih ?_)
        rintro rfl
        exact leaf x child
  intro x node
  have other : x ≠ a := by
    rintro rfl
    rw [Function.update_self] at node
    cases node
  rw [Function.update_of_ne other] at node
  obtain ⟨n, within, depth⟩ := bounded x node
  exact ⟨n, within, still depth other⟩

end Update

end Lib.Forest
