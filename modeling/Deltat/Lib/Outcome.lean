import Mathlib.Data.List.Forall2
import Mathlib.Logic.Relation

/-! # Outcomes of fallible programs over a state

A program that may refuse keeps the state it had reached when it refused. `Ends` says that
whatever the outcome, it and the state left satisfy a relation. The rules follow the shape
of a program: check first, then change the state.
-/

namespace Lib.Outcome

variable {ε ε' σ α β : Type}

section Checks

theorem bind_ok {x : Except ε α} {f : α → Except ε β} {b : β} :
    (x >>= f) = .ok b ↔ ∃ a, x = .ok a ∧ f a = .ok b := by
  cases x with
  | error error => simp [Bind.bind, Except.bind]
  | ok a => simp [Bind.bind, Except.bind]

theorem map_ok {x : Except ε α} {f : α → β} {b : β} :
    (f <$> x) = .ok b ↔ ∃ a, x = .ok a ∧ f a = b := by
  cases x with
  | error error => simp [Functor.map, Except.map]
  | ok a => simp [Functor.map, Except.map]

theorem mapError_ok {ε' : Type} {x : Except ε α} {g : ε → ε'} {a : α} : x.mapError g = .ok a ↔ x = .ok a := by
  cases x <;> simp [Except.mapError]

/-- A loop of checks passes exactly when every check does. -/
theorem forM_ok {xs : List α} {f : α → Except ε Unit} {u : Unit} :
    xs.forM f = .ok u ↔ ∀ x ∈ xs, f x = .ok () := by
  induction xs with
  | nil => simp [List.forM, pure, Except.pure]
  | cons x xs ih =>
      change (f x >>= fun _ => xs.forM f) = _ ↔ _
      rw [bind_ok]
      simp only [ih, List.mem_cons, forall_eq_or_imp]
      exact ⟨fun ⟨_, first, rest⟩ => ⟨first, rest⟩, fun ⟨first, rest⟩ => ⟨(), first, rest⟩⟩

theorem mapM_ok {xs : List α} {f : α → Except ε β} {ys : List β} :
    xs.mapM f = .ok ys ↔ List.Forall₂ (fun x y => f x = .ok y) xs ys := by
  induction xs generalizing ys with
  | nil => simp [pure, Except.pure, eq_comm]
  | cons x xs ih =>
      rw [List.mapM_cons, bind_ok]
      constructor
      · rintro ⟨y, first, rest⟩
        obtain ⟨ys', later, done⟩ := bind_ok.mp rest
        obtain rfl : y :: ys' = ys := by simpa [pure, Except.pure] using done
        exact .cons first (ih.mp later)
      · intro related
        cases related with
        | cons first later => exact ⟨_, first, bind_ok.mpr ⟨_, ih.mpr later, rfl⟩⟩

theorem mapM_ok_mem {xs : List α} {f : α → Except ε β} {ys : List β} (ok : xs.mapM f = .ok ys)
    {x : α} (inside : x ∈ xs) : ∃ y ∈ ys, f x = .ok y := by
  have related := mapM_ok.mp ok
  induction related with
  | nil => cases inside
  | cons first _ ih =>
      rcases List.mem_cons.mp inside with rfl | later
      · exact ⟨_, List.mem_cons_self, first⟩
      · obtain ⟨y, mem, passed⟩ := ih (mapM_ok.mpr ‹_›) later
        exact ⟨y, List.mem_cons_of_mem _ mem, passed⟩

/-- Each result of a loop comes from an element. -/
theorem mapM_ok_result {xs : List α} {f : α → Except ε β} {ys : List β} (ok : xs.mapM f = .ok ys)
    {y : β} (inside : y ∈ ys) : ∃ x ∈ xs, f x = .ok y := by
  have related := mapM_ok.mp ok
  clear ok
  induction related with
  | nil => cases inside
  | cons first _ ih =>
      rcases List.mem_cons.mp inside with rfl | later
      · exact ⟨_, List.mem_cons_self, first⟩
      · obtain ⟨x, member, passed⟩ := ih later
        exact ⟨x, List.mem_cons_of_mem _ member, passed⟩

theorem exists_forall₂ {R : α → β → Prop} {xs : List α} :
    (∃ ys, List.Forall₂ R xs ys) ↔ ∀ x ∈ xs, ∃ y, R x y := by
  constructor
  · rintro ⟨ys, each⟩
    induction each with
    | nil => exact fun x inside => by cases inside
    | cons first _ ih =>
        exact List.forall_mem_cons.mpr ⟨⟨_, first⟩, ih⟩
  · intro each
    induction xs with
    | nil => exact ⟨[], .nil⟩
    | cons x xs ih =>
        obtain ⟨y, first⟩ := each x List.mem_cons_self
        obtain ⟨ys, rest⟩ := ih fun x' inside => each x' (List.mem_cons_of_mem _ inside)
        exact ⟨y :: ys, .cons first rest⟩

theorem mapM_ok_iff {xs : List α} {f : α → Except ε β} :
    (∃ ys, xs.mapM f = .ok ys) ↔ ∀ x ∈ xs, ∃ y, f x = .ok y := by
  simp only [mapM_ok]
  exact exists_forall₂

/-- Two loops over one list give, for each element, a row of the zipped results. -/
theorem mapM_ok_zip {γ : Type} {xs : List α} {f : α → Except ε β} {g : α → Except ε γ} {ys : List β}
    {zs : List γ} (okf : xs.mapM f = .ok ys) (okg : xs.mapM g = .ok zs) {x : α} (inside : x ∈ xs) :
    ∃ y z, ((x, y), z) ∈ (xs.zip ys).zip zs ∧ f x = .ok y ∧ g x = .ok z := by
  have relf := mapM_ok.mp okf
  have relg := mapM_ok.mp okg
  induction relf generalizing zs with
  | nil => cases inside
  | cons first rest ih =>
      cases relg with
      | cons firstg restg =>
          rcases List.mem_cons.mp inside with rfl | later
          · exact ⟨_, _, List.mem_cons_self, first, firstg⟩
          · obtain ⟨y, z, row, passed⟩ := ih (mapM_ok.mpr rest) (mapM_ok.mpr restg) later restg
            exact ⟨y, z, List.mem_cons_of_mem _ row, passed⟩

/-- A row of the zipped results of two loops belongs to one element of the list. -/
theorem mapM_ok_row {γ : Type} {xs : List α} {f : α → Except ε β} {g : α → Except ε γ} {ys : List β}
    {zs : List γ} (okf : xs.mapM f = .ok ys) (okg : xs.mapM g = .ok zs) {x : α} {y : β} {z : γ}
    (row : ((x, y), z) ∈ (xs.zip ys).zip zs) : x ∈ xs ∧ f x = .ok y ∧ g x = .ok z := by
  have relf := mapM_ok.mp okf
  have relg := mapM_ok.mp okg
  clear okf okg
  induction relf generalizing zs with
  | nil => cases row
  | cons first _ ih =>
      cases relg with
      | cons firstg restg =>
          rcases List.mem_cons.mp row with same | later
          · cases same
            exact ⟨List.mem_cons_self, first, firstg⟩
          · obtain ⟨inside, passed⟩ := ih later restg
            exact ⟨List.mem_cons_of_mem _ inside, passed⟩

end Checks

/-- The outcome of a program run from a state, and the state it leaves. -/
def exec (x : ExceptT ε (StateM σ) α) (s : σ) : Except ε α × σ := x.run.run s

/-- Every outcome of `x` from `s`, with the state it leaves, satisfies `Q`. -/
def Ends (x : ExceptT ε (StateM σ) α) (s : σ) (Q : Except ε α → σ → Prop) : Prop :=
  Q (exec x s).1 (exec x s).2

@[simp] theorem exec_pure (a : α) (s : σ) :
    exec (pure a : ExceptT ε (StateM σ) α) s = (.ok a, s) := rfl

@[simp] theorem exec_throw (error : ε) (s : σ) :
    exec (throw error : ExceptT ε (StateM σ) α) s = (.error error, s) := rfl

@[simp] theorem exec_get (s : σ) : exec (get : ExceptT ε (StateM σ) σ) s = (.ok s, s) := rfl

@[simp] theorem exec_set (s s' : σ) :
    exec (set s' : ExceptT ε (StateM σ) PUnit) s = (.ok ⟨⟩, s') := rfl

@[simp] theorem exec_modify (f : σ → σ) (s : σ) :
    exec (modify f : ExceptT ε (StateM σ) PUnit) s = (.ok ⟨⟩, f s) := rfl

/-- A check that reads no state. -/
@[simp] theorem exec_check (c : Except ε α) (s : σ) :
    exec (liftM c : ExceptT ε (StateM σ) α) s = (c, s) := rfl

@[simp] theorem exec_liftExcept (c : Except ε α) (s : σ) :
    exec (liftExcept c : ExceptT ε (StateM σ) α) s = (c, s) := by
  cases c <;> rfl

theorem exec_bind (x : ExceptT ε (StateM σ) α) (f : α → ExceptT ε (StateM σ) β) (s : σ) :
    exec (x >>= f) s = match exec x s with
      | (.ok a, s') => exec (f a) s'
      | (.error error, s') => (.error error, s') := by
  change StateT.run (ExceptT.run (x >>= f)) s = _
  rw [ExceptT.run_bind, StateT.run_bind]
  cases outcome : exec x s with
  | mk result s' =>
      have run : StateT.run x.run s = (result, s') := outcome
      rw [run]
      cases result <;> rfl

theorem exec_bind_ok {x : ExceptT ε (StateM σ) α} {f : α → ExceptT ε (StateM σ) β} {s s' : σ} {a : α}
    (first : exec x s = (.ok a, s')) : exec (x >>= f) s = exec (f a) s' := by
  rw [exec_bind, first]

theorem exec_bind_error {x : ExceptT ε (StateM σ) α} {f : α → ExceptT ε (StateM σ) β} {s s' : σ} {error : ε}
    (first : exec x s = (.error error, s')) : exec (x >>= f) s = (.error error, s') := by
  rw [exec_bind, first]

@[simp] theorem exec_adapt (f : ε → ε') (x : ExceptT ε (StateM σ) α) (s : σ) :
    exec (ExceptT.adapt f x) s = ((exec x s).1.mapError f, (exec x s).2) := rfl

section Rules

variable {x : ExceptT ε (StateM σ) α} {f : α → ExceptT ε (StateM σ) β} {s : σ}
variable {Q : Except ε β → σ → Prop}

theorem Ends.mono {P R : Except ε α → σ → Prop} (h : Ends x s P) (weaken : ∀ r s', P r s' → R r s') :
    Ends x s R := weaken _ _ h

theorem Ends.bind (h : Ends x s fun r s' => match r with
      | .ok a => Ends (f a) s' Q
      | .error error => Q (.error error) s') : Ends (x >>= f) s Q := by
  unfold Ends at h ⊢
  rw [exec_bind]
  cases outcome : exec x s with
  | mk result s' =>
      simp only [outcome] at h
      cases result <;> exact h

theorem Ends.step {a : α} {s' : σ} (first : exec x s = (.ok a, s')) (rest : Ends (f a) s' Q) :
    Ends (x >>= f) s Q := by
  unfold Ends
  rw [exec_bind_ok first]
  exact rest

/-- A check refuses before anything changes, or the program goes on with what it found. -/
theorem Ends.check {c : Except ε α} (refused : ∀ error, c = .error error → Q (.error error) s)
    (passed : ∀ a, c = .ok a → Ends (f a) s Q) : Ends (liftM c >>= f) s Q := by
  apply Ends.bind
  unfold Ends
  rw [exec_check]
  cases outcome : c with
  | error error => exact refused error outcome
  | ok a => exact passed a outcome

theorem Ends.get {f : σ → ExceptT ε (StateM σ) β} (h : Ends (f s) s Q) :
    Ends (MonadState.get >>= f) s Q := h

theorem Ends.pure {b : β} (h : Q (.ok b) s) : Ends (Pure.pure b) s Q := h

theorem Ends.throw {error : ε} (h : Q (.error error) s) : Ends (MonadExcept.throw error) s Q := h

theorem Ends.modify {g : σ → σ} {f : PUnit → ExceptT ε (StateM σ) β} (h : Ends (f ⟨⟩) (g s) Q) :
    Ends (modify g >>= f) s Q := h

theorem Ends.adapt {g : ε → ε'} {Q : Except ε' α → σ → Prop}
    (h : Ends x s fun r s' => Q (r.mapError g) s') : Ends (ExceptT.adapt g x) s Q := h

/-- A loop whose every round keeps an invariant and moves along a relation. -/
theorem Ends.forM {f : α → ExceptT ε (StateM σ) PUnit} {I : σ → Prop} {R : σ → σ → Prop} {as : List α}
    (round : ∀ a ∈ as, ∀ s, I s → Ends (f a) s fun _ s' => I s' ∧ Relation.ReflTransGen R s s') :
    ∀ s, I s → Ends (as.forM f) s fun _ s' => I s' ∧ Relation.ReflTransGen R s s' := by
  induction as with
  | nil => intro s start; exact ⟨start, .refl⟩
  | cons a as ih =>
      intro s start
      apply Ends.bind
      have first := round a List.mem_cons_self s start
      unfold Ends at first ⊢
      cases outcome : exec (f a) s with
      | mk result s' =>
          rw [outcome] at first
          cases result with
          | error error => exact first
          | ok u =>
              have rest := ih (fun b inRest => round b (List.mem_cons_of_mem _ inRest)) s' first.1
              exact ⟨rest.1, first.2.trans rest.2⟩

/-- A loop whose every round keeps an invariant. -/
theorem Ends.keeps {f : α → ExceptT ε (StateM σ) PUnit} {I : σ → Prop} {as : List α}
    (round : ∀ a ∈ as, ∀ s, I s → Ends (f a) s fun _ s' => I s') (s : σ) (start : I s) :
    Ends (as.forM f) s fun _ s' => I s' := by
  have loop := Ends.forM (R := fun _ _ => True) (fun a inside s holds =>
    Ends.mono (round a inside s holds) fun _ _ kept => ⟨kept, .single trivial⟩) s start
  exact Ends.mono loop fun _ _ both => both.1

end Rules

section Failures

variable {P : ε → Prop} {P' : ε' → Prop} {s s' : σ}

/-- Every error of a program, from any state, is of a kind. -/
def FailsWith (P : ε → Prop) (x : ExceptT ε (StateM σ) α) : Prop :=
  ∀ s, Ends x s fun result _ => ∀ error, result = .error error → P error

/-- An error of any other kind comes with the state as it was. -/
def Untouched (P : ε → Prop) (s : σ) (result : Except ε α) (s' : σ) : Prop :=
  ∀ error, result = .error error → ¬ P error → s' = s

theorem FailsWith.bind {x : ExceptT ε (StateM σ) α} {f : α → ExceptT ε (StateM σ) β} (first : FailsWith P x)
    (rest : ∀ a, FailsWith P (f a)) : FailsWith P (x >>= f) := by
  intro s
  apply Ends.bind
  apply Ends.mono (first s)
  intro result s' failed
  cases result with
  | ok a => exact rest a s'
  | error error =>
      intro error' same
      cases same
      exact failed error rfl

theorem FailsWith.adapt {x : ExceptT ε (StateM σ) α} {g : ε → ε'} (fails : FailsWith P x)
    (carried : ∀ error, P error → P' (g error)) : FailsWith P' (ExceptT.adapt g x) := by
  intro s
  apply Ends.adapt
  apply Ends.mono (fails s)
  intro result s' failed error same
  cases result with
  | ok a => cases same
  | error inner =>
      cases same
      exact carried inner (failed inner rfl)

theorem FailsWith.untouched {x : ExceptT ε (StateM σ) α} (fails : FailsWith P x) : Ends x s' (Untouched P s) := by
  apply Ends.mono (fails s')
  intro result s'' failed error same other
  exact absurd (failed error same) other

/-- A check in front leaves the state as it is. -/
theorem Untouched.check {c : Except ε β} {f : β → ExceptT ε (StateM σ) α}
    (passed : ∀ b, c = .ok b → Ends (f b) s (Untouched P s)) : Ends (liftM c >>= f) s (Untouched P s) :=
  Ends.check (fun _ _ _ _ _ => rfl) passed

theorem Untouched.adapt {x : ExceptT ε (StateM σ) α} {g : ε → ε'} (untouched : Ends x s (Untouched P s))
    (carried : ∀ error, P error → P' (g error)) : Ends (ExceptT.adapt g x) s (Untouched P' s) := by
  apply Ends.adapt
  apply Ends.mono untouched
  intro result s' same error failed other
  cases result with
  | ok a => cases failed
  | error inner =>
      cases failed
      exact same inner rfl fun kind => other (carried inner kind)

end Failures

section Related

variable {R : α → β → Prop}

/-- Two lookups that are related succeed together. -/
theorem rel_none {o : Option α} (related : Option.Rel R o none) : o = none := by
  cases related
  rfl

theorem rel_some {o : Option α} {b : β} (related : Option.Rel R o (some b)) : ∃ a, o = some a ∧ R a b := by
  cases related with
  | some both => exact ⟨_, rfl, both⟩

end Related

end Lib.Outcome
