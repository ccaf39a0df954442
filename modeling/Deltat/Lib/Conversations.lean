import Mathlib

/-! # Conversations

A server answers requests one after another and keeps a state between them. A specification of the
server says, of a view of that state, which answer a request may get and what the view is afterwards.
When every single request is served as specified, every conversation is.
-/

namespace Lib.Conversations

variable {σ τ ι ο : Type}

/-- The answers to requests in turn, and the state they leave. -/
def converse (serve : σ → ι → ο × σ) (s : σ) : List ι → List ο × σ
  | [] => ([], s)
  | i :: rest => ((serve s i).1 :: (converse serve (serve s i).2 rest).1, (converse serve (serve s i).2 rest).2)

/-- Requests are answered as specified, one after another. -/
inductive Specified (spec : τ → ι → ο → τ → Prop) : τ → List ι → List ο → τ → Prop
  | nil (t : τ) : Specified spec t [] [] t
  | cons {t t' t'' : τ} {i : ι} {o : ο} {is : List ι} {os : List ο} (first : spec t i o t')
      (rest : Specified spec t' is os t'') : Specified spec t (i :: is) (o :: os) t''

section

variable {serve : σ → ι → ο × σ} {spec : τ → ι → ο → τ → Prop}

theorem converse_specified (view : σ → τ) (Invariant : σ → Prop)
    (served : ∀ s i, Invariant s → Invariant (serve s i).2 ∧ spec (view s) i (serve s i).1 (view (serve s i).2))
    (requests : List ι) {s : σ} (holds : Invariant s) :
    Specified spec (view s) requests (converse serve s requests).1 (view (converse serve s requests).2) := by
  induction requests generalizing s with
  | nil => exact .nil _
  | cons i rest ih =>
      obtain ⟨kept, first⟩ := served s i holds
      exact .cons first (ih kept)

/-- Whether every request of a conversation meets a condition on the state that it comes to. -/
def Along (serve : σ → ι → ο × σ) (allowed : σ → ι → Prop) : σ → List ι → Prop
  | _, [] => True
  | s, i :: rest => allowed s i ∧ Along serve allowed (serve s i).2 rest

variable {allowed : σ → ι → Prop}

theorem along_of_mem (requests : List ι) (always : ∀ i ∈ requests, ∀ s, allowed s i) (s : σ) :
    Along serve allowed s requests := by
  induction requests generalizing s with
  | nil => trivial
  | cons i rest ih =>
      rw [List.forall_mem_cons] at always
      exact ⟨always.1 s, ih always.2 _⟩

/-- The same when only some requests are allowed. -/
theorem along_specified (view : σ → τ) (Invariant : σ → Prop)
    (served : ∀ s i, Invariant s → allowed s i →
      Invariant (serve s i).2 ∧ spec (view s) i (serve s i).1 (view (serve s i).2))
    (requests : List ι) {s : σ} (holds : Invariant s) (along : Along serve allowed s requests) :
    Specified spec (view s) requests (converse serve s requests).1 (view (converse serve s requests).2) := by
  induction requests generalizing s with
  | nil => exact .nil _
  | cons i rest ih =>
      obtain ⟨kept, first⟩ := served s i holds along.1
      exact .cons first (ih kept along.2)

/-- Servers that stay alike give the same answers. -/
theorem along_alike {Alike : σ → σ → Prop}
    (served : ∀ s u i, Alike s u → allowed s i → (serve s i).1 = (serve u i).1 ∧ Alike (serve s i).2 (serve u i).2)
    (requests : List ι) {s u : σ} (alike : Alike s u) (along : Along serve allowed s requests) :
    (converse serve s requests).1 = (converse serve u requests).1 ∧
      Alike (converse serve s requests).2 (converse serve u requests).2 := by
  induction requests generalizing s u with
  | nil => exact ⟨rfl, alike⟩
  | cons i rest ih =>
      obtain ⟨answer, after⟩ := served s u i alike along.1
      obtain ⟨answers, last⟩ := ih after along.2
      exact ⟨congrArg₂ List.cons answer answers, last⟩

end

/-! ## Views that are sets of rows -/

section

variable {α : Type} {rows : Set α} {f : α → α} {gone : α → Prop}

/-- To rewrite some rows of a table is to drop them and to add what they become. -/
theorem image_rewrites (same : ∀ x ∈ rows, ¬ gone x → f x = x) :
    Set.image f rows = {x ∈ rows | ¬ gone x} ∪ {y | ∃ x ∈ rows, gone x ∧ f x = y} := by
  ext y
  constructor
  · intro ⟨x, inside, becomes⟩
    by_cases rewritten : gone x
    · exact .inr ⟨x, inside, rewritten, becomes⟩
    · rw [same x inside rewritten] at becomes
      exact .inl (becomes ▸ ⟨inside, rewritten⟩)
  · intro kept
    cases kept with
    | inl kept => exact ⟨y, kept.1, same y kept.1 kept.2⟩
    | inr added =>
        obtain ⟨x, inside, _, becomes⟩ := added
        exact ⟨x, inside, becomes⟩

end

end Lib.Conversations
