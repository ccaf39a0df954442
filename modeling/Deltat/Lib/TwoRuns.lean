import Deltat.Lib.Outcome

/-! # Two runs side by side

Two programs run from related states. They answer alike when they fail with the same error or
give related results, and they keep the states related. The rules follow the shape of a program.
-/

namespace Lib.TwoRuns

open Outcome

variable {ε ε' σ τ α β γ δ : Type}

/-- The same error, or related results. -/
inductive Same (Q : α → β → Prop) : Except ε α → Except ε β → Prop where
  | ok {a : α} {b : β} (related : Q a b) : Same Q (.ok a) (.ok b)
  | error (e : ε) : Same Q (.error e) (.error e)

/-- From these two states the programs answer alike, and leave related states. -/
def AlikeFrom (R : σ → τ → Prop) (Q : α → β → Prop) (x : ExceptT ε (StateM σ) α) (y : ExceptT ε (StateM τ) β) (s : σ)
    (t : τ) : Prop :=
  Same Q (exec x s).1 (exec y t).1 ∧ R (exec x s).2 (exec y t).2

/-- From all related states. -/
def Alike (R : σ → τ → Prop) (Q : α → β → Prop) (x : ExceptT ε (StateM σ) α) (y : ExceptT ε (StateM τ) β) : Prop :=
  ∀ s t, R s t → AlikeFrom R Q x y s t

section Results

variable {Q : α → β → Prop} {P : γ → δ → Prop}

theorem Same.eq {c d : Except ε α} (same : Same Eq c d) : c = d := by
  cases same with
  | ok related => rw [related]
  | error e => rfl

theorem Same.of_eq {c d : Except ε α} (same : c = d) : Same Eq c d := by
  subst same
  cases c with
  | ok a => exact .ok rfl
  | error e => exact .error e

theorem Same.bind {c : Except ε α} {d : Except ε β} {f : α → Except ε γ} {g : β → Except ε δ} (first : Same Q c d)
    (rest : ∀ a b, Q a b → Same P (f a) (g b)) : Same P (c >>= f) (d >>= g) := by
  cases first with
  | ok related => exact rest _ _ related
  | error e => exact .error e

theorem Same.mapError {c : Except ε α} {d : Except ε β} (same : Same Q c d) (f : ε → ε') :
    Same Q (c.mapError f) (d.mapError f) := by
  cases same with
  | ok related => exact .ok related
  | error e => exact .error (f e)

/-- Loops over related lists give related lists. -/
theorem Same.mapM {S : γ → δ → Prop} {f : γ → Except ε α} {g : δ → Except ε β} {xs : List γ} {ys : List δ}
    (related : List.Forall₂ S xs ys) (each : ∀ x y, S x y → Same Q (f x) (g y)) :
    Same (List.Forall₂ Q) (xs.mapM f) (ys.mapM g) := by
  induction related with
  | nil => exact .ok .nil
  | cons first _ ih =>
      rw [List.mapM_cons, List.mapM_cons]
      apply (each _ _ first).bind
      intro a b here
      apply ih.bind
      intro as bs later
      exact .ok (.cons here later)

theorem Same.forM {S : γ → δ → Prop} {f : γ → Except ε Unit} {g : δ → Except ε Unit} {xs : List γ} {ys : List δ}
    (related : List.Forall₂ S xs ys) (each : ∀ x y, S x y → Same Eq (f x) (g y)) :
    Same Eq (xs.forM f) (ys.forM g) := by
  induction related with
  | nil => exact .ok rfl
  | @cons x y xs ys first _ ih =>
      change Same Eq (f x >>= fun _ => xs.forM f) (g y >>= fun _ => ys.forM g)
      exact (each x y first).bind fun _ _ _ => ih

end Results

section Rules

variable {R : σ → τ → Prop} {Q : α → β → Prop} {P : γ → δ → Prop} {s : σ} {t : τ}
variable {x : ExceptT ε (StateM σ) α} {y : ExceptT ε (StateM τ) β}
variable {f : α → ExceptT ε (StateM σ) γ} {g : β → ExceptT ε (StateM τ) δ}

theorem AlikeFrom.pure {a : α} {b : β} (related : Q a b) (states : R s t) :
    AlikeFrom R Q (pure a : ExceptT ε (StateM σ) α) (pure b : ExceptT ε (StateM τ) β) s t :=
  ⟨.ok related, states⟩

theorem AlikeFrom.bind (first : AlikeFrom R Q x y s t) (rest : ∀ a b, Q a b → Alike R P (f a) (g b)) :
    AlikeFrom R P (x >>= f) (y >>= g) s t := by
  obtain ⟨answers, states⟩ := first
  unfold AlikeFrom
  rw [exec_bind, exec_bind]
  cases outcome : exec x s with
  | mk result s' =>
      cases outcome' : exec y t with
      | mk result' t' =>
          rw [outcome, outcome'] at answers states
          cases answers with
          | ok related => exact rest _ _ related s' t' states
          | error e => exact ⟨.error e, states⟩

theorem AlikeFrom.get {f : σ → ExceptT ε (StateM σ) γ} {g : τ → ExceptT ε (StateM τ) δ}
    (rest : AlikeFrom R P (f s) (g t) s t) :
    AlikeFrom R P (MonadState.get >>= f) (MonadState.get >>= g) s t := rest

/-- Checks with the same outcome, before anything changes. -/
theorem AlikeFrom.check {c : Except ε α} {d : Except ε β} (checks : Same Q c d) (states : R s t)
    (rest : ∀ a b, Q a b → AlikeFrom R P (f a) (g b) s t) :
    AlikeFrom R P (liftM c >>= f) (liftM d >>= g) s t := by
  unfold AlikeFrom at rest ⊢
  rw [exec_bind, exec_bind, exec_check, exec_check]
  cases checks with
  | ok related => exact rest _ _ related
  | error e => exact ⟨.error e, states⟩

theorem AlikeFrom.liftExcept {c : Except ε α} {d : Except ε β} (checks : Same Q c d) (states : R s t) :
    AlikeFrom R Q (liftExcept c : ExceptT ε (StateM σ) α) (liftExcept d : ExceptT ε (StateM τ) β) s t := by
  unfold AlikeFrom
  rw [exec_liftExcept, exec_liftExcept]
  exact ⟨checks, states⟩

theorem AlikeFrom.adapt {h : ε → ε'} (inner : AlikeFrom R Q x y s t) :
    AlikeFrom R Q (ExceptT.adapt h x) (ExceptT.adapt h y) s t := by
  unfold AlikeFrom
  rw [exec_adapt, exec_adapt]
  exact ⟨inner.1.mapError h, inner.2⟩

theorem Alike.bind (first : Alike R Q x y) (rest : ∀ a b, Q a b → Alike R P (f a) (g b)) :
    Alike R P (x >>= f) (y >>= g) := fun s t states => (first s t states).bind rest

/-- A loop whose every round runs alike. -/
theorem Alike.forM {f : α → ExceptT ε (StateM σ) PUnit} {g : α → ExceptT ε (StateM τ) PUnit}
    (each : ∀ a, Alike R Eq (f a) (g a)) (as : List α) : Alike R Eq (as.forM f) (as.forM g) := by
  induction as with
  | nil => exact fun s t states => ⟨.ok rfl, states⟩
  | cons a as ih =>
      change Alike R Eq (f a >>= fun _ => as.forM f) (g a >>= fun _ => as.forM g)
      exact (each a).bind fun _ _ _ => ih

end Rules

end Lib.TwoRuns
