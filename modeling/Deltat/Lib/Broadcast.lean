import Mathlib

/-! # Broadcast channels that never wait for a receiver

A channel keeps the latest values that were sent on it. A receiver reads them in order at its own
pace. One that falls behind what the channel keeps is told how many values it has missed, and reads
on from the oldest one that is kept.
-/

namespace Lib.Broadcast

/-- What a receiver is given: a value, or how many it has missed. -/
inductive Item (α : Type) where
  | value (v : α)
  | lagged (missed : Nat)
  deriving DecidableEq

/-- What there is for a receiver. -/
inductive Received (α ρ : Type) where
  | item (item : Item α) (rx : ρ)
  /-- Nothing to read until another value is sent. -/
  | pending
  /-- Nothing to read any more. -/
  | closed

/-- The operations of an implementation. -/
structure Channels (α : Type) where
  Channel : Type
  Receiver : Type
  create : Nat → Channel
  subscribe : Channel → Receiver
  send : α → Channel → Channel
  /-- The last sender is dropped. -/
  close : Channel → Channel
  recv : Channel → Receiver → Received α Receiver

/-- How an implementation is documented to behave, in terms of all values sent on a channel, how
    many of them a receiver has behind it, and how many a channel keeps. -/
structure Documented {α : Type} (b : Channels α) where
  sent : b.Channel → List α
  closed : b.Channel → Bool
  kept : b.Channel → Nat
  read : b.Receiver → Nat
  create (n : Nat) : sent (b.create n) = [] ∧ closed (b.create n) = false
  keeps (n : Nat) : 0 < n → 0 < kept (b.create n)
  subscribe (c : b.Channel) : read (b.subscribe c) = (sent c).length
  send (v : α) (c : b.Channel) : sent (b.send v c) = sent c ++ [v] ∧ closed (b.send v c) = closed c ∧
    kept (b.send v c) = kept c
  close (c : b.Channel) : sent (b.close c) = sent c ∧ closed (b.close c) = true ∧ kept (b.close c) = kept c
  lags (c : b.Channel) (rx : b.Receiver) : read rx + kept c < (sent c).length →
    ∃ rx', b.recv c rx = .item (.lagged ((sent c).length - kept c - read rx)) rx' ∧ read rx' = (sent c).length - kept c
  reads (c : b.Channel) (rx : b.Receiver) (v : α) : (sent c).length ≤ read rx + kept c → (sent c)[read rx]? = some v →
    ∃ rx', b.recv c rx = .item (.value v) rx' ∧ read rx' = read rx + 1
  waits (c : b.Channel) (rx : b.Receiver) : (sent c).length ≤ read rx →
    b.recv c rx = if closed c then .closed else .pending

/-! ## What a receiver has heard -/

variable {α : Type} {sent later : List α} {p q r missed : Nat} {v : α} {item : Item α} {items more : List (Item α)}

/-- The items tell of the values from one place to another: each in its turn, or counted as missed. -/
inductive Heard (sent : List α) : Nat → List (Item α) → Nat → Prop
  | nil (p : Nat) : Heard sent p [] p
  | value {p q : Nat} {v : α} {items : List (Item α)} (next : sent[p]? = some v) (rest : Heard sent (p + 1) items q) :
      Heard sent p (.value v :: items) q
  | lagged {p q missed : Nat} {items : List (Item α)} (some : 0 < missed) (rest : Heard sent (p + missed) items q) :
      Heard sent p (.lagged missed :: items) q

def Item.value? : Item α → Option α
  | value v => some v
  | lagged _ => none

/-- How many values an item stands for. -/
def Item.count : Item α → Nat
  | value _ => 1
  | lagged missed => missed

/-- More values sent take nothing from what was heard. -/
theorem Heard.longer (heard : Heard sent p items q) (grown : sent <+: later) : Heard later p items q := by
  induction heard with
  | nil p => exact .nil p
  | value next _ ih =>
      obtain ⟨rest, rfl⟩ := grown
      obtain ⟨inside, _⟩ := List.getElem?_eq_some_iff.mp next
      exact .value (by rwa [List.getElem?_append_left inside]) ih
  | lagged some _ ih => exact .lagged some ih

theorem Heard.append (heard : Heard sent p items q) (next : Heard sent q more r) : Heard sent p (items ++ more) r := by
  induction heard with
  | nil => exact next
  | value here _ ih => exact .value here (ih next)
  | lagged some _ ih => exact .lagged some (ih next)

/-- The first items tell of the first part. -/
theorem Heard.before (heard : Heard sent p (items ++ more) r) : ∃ q, Heard sent p items q := by
  induction items generalizing p with
  | nil => exact ⟨p, .nil p⟩
  | cons item items ih =>
      cases heard with
      | value next rest => exact (ih rest).imp fun _ heard => .value next heard
      | lagged some rest => exact (ih rest).imp fun _ heard => .lagged some heard

/-- Every value is heard or counted as missed. -/
theorem Heard.counted (heard : Heard sent p items q) : p + (items.map Item.count).sum = q := by
  induction heard with
  | nil => rfl
  | value _ _ ih | lagged _ _ ih =>
      simp only [List.map_cons, List.sum_cons, Item.count]
      omega

/-- The values heard are some of those sent from there on, in order. -/
theorem Heard.sublist (heard : Heard sent p items q) : (items.filterMap Item.value?).Sublist (sent.drop p) := by
  induction heard with
  | nil => exact List.nil_sublist _
  | value next _ ih =>
      obtain ⟨inside, rfl⟩ := List.getElem?_eq_some_iff.mp next
      rw [List.drop_eq_getElem_cons inside]
      exact ih.cons_cons _
  | @lagged p _ missed _ _ _ ih =>
      have fewer : (sent.drop (p + missed)).Sublist (sent.drop p) := by
        rw [← List.drop_drop]
        exact List.drop_sublist _ _
      exact ih.trans fewer

/-! ## One item more -/

variable {b : Channels α} (doc : Documented b) {c : b.Channel} {rx rx' : b.Receiver}

/-- A receiver that is given something goes on by what it is told, to before the latest value or
    past it with that value. -/
theorem Documented.received (given : b.recv c rx = .item item rx') (keeps : 0 < doc.kept c) :
    Heard (doc.sent c) (doc.read rx) [item] (doc.read rx') ∧ doc.read rx' ≤ (doc.sent c).length ∧
      (doc.read rx' = (doc.sent c).length → ∃ v, item = .value v ∧ (doc.sent c).getLast? = some v) := by
  by_cases behind : doc.read rx + doc.kept c < (doc.sent c).length
  · obtain ⟨next, lagged, place⟩ := doc.lags c rx behind
    cases lagged.symm.trans given
    rw [place]
    refine ⟨.lagged (by omega) ?_, by omega, fun all => by omega⟩
    have there : doc.read rx + ((doc.sent c).length - doc.kept c - doc.read rx) = (doc.sent c).length - doc.kept c := by
      omega
    rw [there]
    exact .nil _
  · cases there : (doc.sent c)[doc.read rx]? with
    | none =>
        have waits := doc.waits c rx (List.getElem?_eq_none_iff.mp there)
        rw [given] at waits
        split at waits <;> cases waits
    | some v =>
        obtain ⟨next, value, place⟩ := doc.reads c rx v (by omega) there
        obtain ⟨inside, here⟩ := List.getElem?_eq_some_iff.mp there
        cases value.symm.trans given
        rw [place]
        refine ⟨.value there (.nil _), inside, fun all => ⟨v, rfl, ?_⟩⟩
        rw [List.getLast?_eq_getElem?, ← all, Nat.add_sub_cancel, there]

theorem Documented.received_further (given : b.recv c rx = .item item rx') (keeps : 0 < doc.kept c) :
    doc.read rx < doc.read rx' := by
  have counted := (doc.received given keeps).1.counted
  have some : 0 < item.count := by
    cases (doc.received given keeps).1 with
    | value => exact Nat.one_pos
    | lagged some => exact some
  simp only [List.map_cons, List.map_nil, List.sum_cons, List.sum_nil] at counted
  omega

/-- A receiver has nothing to read where it has everything behind it. -/
theorem Documented.idle (none : ∀ item rx', b.recv c rx ≠ .item item rx') : (doc.sent c).length ≤ doc.read rx := by
  by_contra unread
  by_cases behind : doc.read rx + doc.kept c < (doc.sent c).length
  · obtain ⟨next, lagged, _⟩ := doc.lags c rx behind
    exact none _ _ lagged
  · obtain ⟨next, value, _⟩ := doc.reads c rx _ (by omega) (List.getElem?_eq_getElem (by omega))
    exact none _ _ value

/-! ## A ring -/

/-- The values sent on a channel, whether it is closed, and how many it keeps. -/
structure Ring (α : Type) where
  sent : List α
  closed : Bool
  kept : Nat

/-- A receiver of a ring is how many values it has behind it. -/
def Ring.recv (c : Ring α) (rx : Nat) : Received α Nat :=
  if rx + c.kept < c.sent.length then .item (.lagged (c.sent.length - c.kept - rx)) (c.sent.length - c.kept)
  else
    match c.sent[rx]? with
    | some v => .item (.value v) (rx + 1)
    | none => if c.closed then .closed else .pending

def ring (α : Type) : Channels α where
  Channel := Ring α
  Receiver := Nat
  create n := ⟨[], false, n⟩
  subscribe c := c.sent.length
  send v c := { c with sent := c.sent ++ [v] }
  close c := { c with closed := true }
  recv := Ring.recv

theorem Ring.recv_near {c : Ring α} {rx : Nat} (near : c.sent.length ≤ rx + c.kept) (there : c.sent[rx]? = some v) :
    c.recv rx = .item (.value v) (rx + 1) := by
  simp only [recv, Nat.not_lt.mpr near, if_false, there]

theorem Ring.recv_past {c : Ring α} {rx : Nat} (past : c.sent.length ≤ rx) :
    c.recv rx = if c.closed then .closed else .pending := by
  have near : ¬ rx + c.kept < c.sent.length := by omega
  simp only [recv, if_neg near, List.getElem?_eq_none past]

def ringDocumented (α : Type) : Documented (ring α) where
  sent := Ring.sent
  closed := Ring.closed
  kept := Ring.kept
  read := id
  create _ := ⟨rfl, rfl⟩
  keeps _ some := some
  subscribe _ := rfl
  send _ _ := ⟨rfl, rfl, rfl⟩
  close _ := ⟨rfl, rfl, rfl⟩
  lags _ _ behind := ⟨_, if_pos behind, rfl⟩
  reads _ _ _ near there := ⟨_, Ring.recv_near near there, rfl⟩
  waits _ _ past := Ring.recv_past past

end Lib.Broadcast
