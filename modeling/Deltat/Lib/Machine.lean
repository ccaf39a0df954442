/-! # Machines that take labelled steps

A machine is a partial step function on states and actions. What holds in a start and is kept
by every step of a kind holds in every state that steps of that kind reach.
-/

namespace Lib.Machine

variable {σ α : Type} {step : σ → α → Option σ} {allowed : σ → α → Prop} {s₀ s s' : σ}

/-- The states reached by steps that a condition on the state and the action allows. -/
inductive Reaches (step : σ → α → Option σ) (allowed : σ → α → Prop) (s₀ : σ) : σ → Prop where
  | start : Reaches step allowed s₀ s₀
  | next {s s' : σ} (a : α) (reached : Reaches step allowed s₀ s) (condition : allowed s a)
      (taken : step s a = some s') : Reaches step allowed s₀ s'

/-- What holds in the start and is kept by every allowed step holds in every state reached. -/
theorem Reaches.invariant {I : σ → Prop} (reached : Reaches step allowed s₀ s) (start : I s₀)
    (keeps : ∀ s a s', I s → allowed s a → step s a = some s' → I s') : I s := by
  induction reached with
  | start => exact start
  | next a _ condition taken ih => exact keeps _ a _ ih condition taken

/-- Steps of a list of actions, each of which has to be possible. -/
def run (step : σ → α → Option σ) : List α → σ → Option σ
  | [], s => some s
  | a :: rest, s => (step s a).bind (run step rest)

/-- A list of possible and allowed actions leads on from a state that is reached. -/
theorem Reaches.run {actions : List α} (reached : Reaches step allowed s₀ s)
    (condition : ∀ a ∈ actions, ∀ s, allowed s a) (ran : Machine.run step actions s = some s') :
    Reaches step allowed s₀ s' := by
  induction actions generalizing s with
  | nil =>
      cases ran
      exact reached
  | cons a rest ih =>
      obtain ⟨t, taken, ran⟩ := Option.bind_eq_some_iff.mp ran
      exact ih (.next a reached (condition a List.mem_cons_self s) taken)
        (fun b inRest => condition b (List.mem_cons_of_mem _ inRest)) ran

/-- What a list of possible and allowed actions leads to is reached. -/
theorem reaches_of_run {actions : List α} (condition : ∀ a ∈ actions, ∀ s, allowed s a)
    (ran : run step actions s₀ = some s) : Reaches step allowed s₀ s := Reaches.start.run condition ran

/-- What a list of actions leaves alone when each of them does. -/
theorem run_unchanged {β : Type} (view : σ → β) {actions : List α}
    (leaves : ∀ a ∈ actions, ∀ s s', step s a = some s' → view s' = view s) (ran : run step actions s = some s') :
    view s' = view s := by
  induction actions generalizing s with
  | nil =>
      cases ran
      rfl
  | cons a rest ih =>
      obtain ⟨t, taken, ran⟩ := Option.bind_eq_some_iff.mp ran
      exact (ih (fun b inRest => leaves b (List.mem_cons_of_mem _ inRest)) ran).trans
        (leaves a List.mem_cons_self s t taken)

end Lib.Machine
