import Mathlib.Data.List.Basic

/-! # Writes to a slot

A slot is empty or holds a value, and each write to it says what it holds next. A copy of the
slot is taken between two writes, and then the writes on both sides of the copy are replayed
onto it. The last one decides, so this gives what the writes behind the copy give, and that is
also how it stays when those that fill the slot are left out, unless one of them is the last.
-/

namespace Lib.Slots

variable {β : Type}

inductive Write (β : Type) where
  /-- For an empty slot. -/
  | fill (value : β)
  | set (value : β)
  | clear

namespace Write

def result : Write β → Option β
  | fill value | set value => some value
  | clear => none

def fills : Write β → Bool
  | fill _ => true
  | set _ | clear => false

end Write

/-- The slot after a list of writes. -/
def play : List (Write β) → Option β → Option β
  | [], slot => slot
  | w :: rest, _ => play rest w.result

/-- Whether the slot is filled only where it is empty. -/
def FillsEmpty : List (Write β) → Option β → Prop
  | [], _ => True
  | w :: rest, slot => (w.fills = true → slot = none) ∧ FillsEmpty rest w.result

variable {writes before behind : List (Write β)} {slot copy : Option β}

theorem play_append : play (before ++ behind) slot = play behind (play before slot) := by
  induction before generalizing slot with
  | nil => rfl
  | cons w rest ih => exact ih

theorem play_concat (w : Write β) : play (writes ++ [w]) slot = w.result := play_append

theorem fillsEmpty_append :
    FillsEmpty (before ++ behind) slot ↔ FillsEmpty before slot ∧ FillsEmpty behind (play before slot) := by
  induction before generalizing slot with
  | nil => exact ⟨fun fills => ⟨trivial, fills⟩, And.right⟩
  | cons w rest ih => exact (and_congr_right fun _ => ih).trans and_assoc.symm

theorem fillsEmpty_of_none (none : ∀ w ∈ writes, w.fills = false) : FillsEmpty writes slot := by
  induction writes generalizing slot with
  | nil => trivial
  | cons w rest ih =>
      obtain ⟨first, others⟩ := List.forall_mem_cons.mp none
      exact ⟨fun fills => (by cases first.symm.trans fills), ih others⟩

/-- Writes that leave an empty slot empty. -/
theorem FillsEmpty.of_empty (fills : FillsEmpty writes slot) : FillsEmpty writes none := by
  cases writes with
  | nil => trivial
  | cons w rest => exact ⟨fun _ => rfl, fills.2⟩

/-- Replaying what led to an empty copy onto it leaves it empty. -/
theorem play_empty (empty : play before slot = none) : play before none = none := by
  cases before with
  | nil => rfl
  | cons w rest => exact empty

/-- All writes replayed onto an empty copy, as those behind it. -/
theorem replay_empty (empty : play before slot = none) : play (before ++ behind) none = play behind none := by
  rw [play_append, play_empty empty]

theorem replay_empty_fills (fills : FillsEmpty (before ++ behind) slot) (empty : play before slot = none) :
    FillsEmpty (before ++ behind) none := by
  obtain ⟨first, later⟩ := fillsEmpty_append.mp fills
  rw [empty] at later
  exact fillsEmpty_append.mpr ⟨first.of_empty, by rwa [play_empty empty]⟩

/-- When the last write fills the slot, it is the only one, and the copy has it already. -/
def KeepsCopy (writes : List (Write β)) (copy : Option β) : Prop :=
  ∀ front w, writes = front ++ [w] → w.fills = true → front = [] ∧ copy.isSome

/-- The writes that do not fill the slot replayed onto a copy, as all those behind it. -/
theorem replay_kept (taken : copy = play before slot) (fills : FillsEmpty behind copy)
    (keeps : KeepsCopy (before ++ behind) copy) :
    play ((before ++ behind).filter (!·.fills)) copy = play behind copy := by
  rcases List.eq_nil_or_concat (before ++ behind) with nothing | ⟨front, w, split⟩
  · obtain ⟨_, rfl⟩ := List.append_eq_nil_iff.mp nothing
    rw [nothing]
    rfl
  · rw [List.concat_eq_append] at split
    -- What is behind the copy ends with the last write, unless nothing is.
    have last : play behind copy = w.result ∨ behind = [] := by
      rcases List.eq_nil_or_concat behind with none | ⟨between, w', rfl⟩
      · exact .inr none
      · rw [List.concat_eq_append, ← List.append_assoc] at split
        obtain ⟨_, same⟩ := List.append_inj' split rfl
        cases same
        exact .inl (by rw [List.concat_eq_append, play_concat])
    cases kind : w.fills with
    | true =>
        obtain ⟨rfl, held⟩ := keeps front w split kind
        rw [List.nil_append] at split
        have nothing : (before ++ behind).filter (!·.fills) = [] := by simp [split, kind]
        rw [nothing]
        -- An addition behind the copy would find the slot filled.
        rcases List.append_eq_singleton_iff.mp split with ⟨_, rfl⟩ | ⟨_, rfl⟩
        · obtain ⟨none, _⟩ := fills
          rw [none kind] at held
          cases held
        · rfl
    | false =>
        rw [split, List.filter_append, List.filter_singleton, kind]
        refine (play_concat w).trans ?_
        rcases last with same | rfl
        · exact same.symm
        · rw [List.append_nil] at split
          rw [taken, split, play_concat]
          rfl

/-- A value that is overwritten: the last one stays. -/
theorem overwrite_again {α : Type} (before behind : List α) (value : α) :
    (before ++ behind).getLast?.getD (before.getLast?.getD value) = behind.getLast?.getD (before.getLast?.getD value) := by
  rw [List.getLast?_append]
  cases behind.getLast? with
  | some last => rfl
  | none => cases before.getLast? <;> rfl

end Lib.Slots
