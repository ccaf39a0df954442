import Deltat.Lib.Codec

/-! # What a decoder accepts

A decoder may read bytes that no encoder wrote. `Gives d bytes Q` says of any bytes that what is
read from them, and what is left of them, satisfies `Q`. A decoder spends at least a value's size
on it when writing the value again takes no more bytes than it was read from.
-/

namespace Lib.Codec

open Lib.Bytes

variable {α β : Type}

def Gives (d : Decoder α) (bytes : List UInt8) (Q : α → List UInt8 → Prop) : Prop :=
  ∀ a rest, d.run bytes = some (a, rest) → Q a rest

/-- Whatever the decoder reads satisfies `P`, and fits in the bytes it was read from. -/
def Spends (d : Decoder α) (size : α → Nat) (P : α → Prop) : Prop :=
  ∀ bytes, Gives d bytes fun a rest => P a ∧ size a + rest.length ≤ bytes.length

section Rules

variable {d : Decoder α} {f : α → Decoder β} {bytes : List UInt8} {size : α → Nat} {P : α → Prop} {Q : β → List UInt8 → Prop}

theorem Gives.pure {b : β} (holds : Q b bytes) : Gives (Pure.pure b) bytes Q := by
  intro b' rest read
  cases read
  exact holds

theorem Gives.failure : Gives (failure : Decoder β) bytes Q := by
  intro b rest read
  cases read

/-- After a value comes whatever the rest of the decoder gives on what the value left. -/
theorem Spends.bind (first : Spends d size P)
    (next : ∀ a rest, P a → size a + rest.length ≤ bytes.length → Gives (f a) rest Q) : Gives (d >>= f) bytes Q := by
  intro b left read
  rw [StateT.run_bind] at read
  obtain ⟨⟨a, rest⟩, here, further⟩ := Option.bind_eq_some_iff.mp read
  obtain ⟨holds, fits⟩ := first bytes a rest here
  exact next a rest holds fits b left further

theorem Spends.map {g : α → β} {size' : β → Nat} {P' : β → Prop} (first : Spends d size P)
    (keeps : ∀ a, P a → P' (g a) ∧ size' (g a) ≤ size a) : Spends (g <$> d) size' P' := by
  intro bytes b left read
  rw [StateT.run_map] at read
  obtain ⟨⟨a, rest⟩, here, same⟩ := Option.map_eq_some_iff.mp read
  cases same
  obtain ⟨holds, fits⟩ := first bytes a rest here
  obtain ⟨kept, smaller⟩ := keeps a holds
  exact ⟨kept, (Nat.add_le_add_right smaller _).trans fits⟩

end Rules

/-! ## Building blocks -/

theorem spends_take (n : Nat) : Spends (take n) (fun _ => n) fun taken => taken.length = n := by
  intro bytes taken rest read
  obtain ⟨rfl, length⟩ := readExact_some.mp read
  exact ⟨length, by rw [List.length_append, length]⟩

theorem ofLe_lt (bytes : List UInt8) : ofLe bytes < 256 ^ bytes.length := by
  induction bytes with
  | nil => exact Nat.one_pos
  | cons b rest ih =>
      have low := b.toNat_lt
      rw [ofLe, List.length_cons, pow_succ']
      omega

theorem le_ofLe (bytes : List UInt8) : le bytes.length (ofLe bytes) = bytes := by
  induction bytes with
  | nil => rfl
  | cons b rest ih =>
      have low := b.toNat_lt
      have first : UInt8.ofNat (b.toNat + 256 * ofLe rest) = b := by
        apply UInt8.toNat_inj.mp
        rw [UInt8.toNat_ofNat']
        omega
      have others : (b.toNat + 256 * ofLe rest) / 256 = ofLe rest := by omega
      rw [ofLe, List.length_cons, le, first, others, ih]

theorem spends_number (width : Nat) : Spends (number width) (fun _ => width) fun n => n < 256 ^ width :=
  (spends_take width).map fun taken length => ⟨length ▸ ofLe_lt taken, le_rfl⟩

theorem spends_flag : Spends flag (fun _ => 1) fun _ => True := by
  intro bytes
  unfold flag
  refine (spends_number 1).bind fun n rest _ fits => ?_
  split
  · exact .pure ⟨trivial, fits⟩
  · exact .pure ⟨trivial, fits⟩
  · exact .failure

theorem spends_option {d : Decoder α} {encode : α → List UInt8} {P : α → Prop} (each : Spends d (fun a => (encode a).length) P) :
    Spends (option d) (fun value => (encodeOption encode value).length) fun value => ∀ a, value = some a → P a := by
  intro bytes
  unfold option
  refine spends_flag.bind fun present rest _ flagged => ?_
  cases present with
  | false => exact .pure ⟨fun a none' => (by cases none'), flagged⟩
  | true =>
      intro value left read
      change (some <$> d).run rest = some (value, left) at read
      rw [StateT.run_map] at read
      obtain ⟨⟨a, left'⟩, here, same⟩ := Option.map_eq_some_iff.mp read
      cases same
      obtain ⟨holds, fits⟩ := each rest a left' here
      refine ⟨fun b same => Option.some.inj same ▸ holds, ?_⟩
      have spent : (encode a).length + 1 + left'.length ≤ bytes.length := by
        simp only at fits
        omega
      exact spent

theorem spends_items {d : Decoder α} {encode : α → List UInt8} {P : α → Prop} (each : Spends d (fun a => (encode a).length) P) :
    ∀ n, Spends (items d n) (fun values => (values.flatMap encode).length) fun values => values.length = n ∧ ∀ a ∈ values, P a := by
  intro n
  induction n with
  | zero => exact fun bytes => .pure ⟨⟨rfl, List.forall_mem_nil _⟩, (Nat.zero_add _).le⟩
  | succ n ih =>
      intro bytes
      unfold items
      refine each.bind fun a afterFirst holds first => ?_
      refine ih.bind fun others rest all fits => ?_
      apply Gives.pure
      refine ⟨⟨by rw [List.length_cons, all.1], List.forall_mem_cons.mpr ⟨holds, all.2⟩⟩, ?_⟩
      simp only [List.flatMap_cons, List.length_append]
      omega

end Lib.Codec
