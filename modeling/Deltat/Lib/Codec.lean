import Deltat.Lib.Bytes

/-! # Decoders

A decoder consumes a prefix of the bytes it is given. `Reads d bytes a` says that on exactly
these bytes it yields `a` and leaves whatever follows them, so that encodings laid end to end
are decoded by decoders run one after another.
-/

namespace Lib.Codec

open Lib.Bytes

abbrev Decoder (α : Type) := StateT (List UInt8) Option α

variable {α β : Type}

def Reads (d : Decoder α) (bytes : List UInt8) (a : α) : Prop :=
  ∀ rest, d.run (bytes ++ rest) = some (a, rest)

/-! ## Rules -/

theorem Reads.pure (a : α) : Reads (Pure.pure a) [] a := fun _ => rfl

theorem Reads.bind {d : Decoder α} {f : α → Decoder β} {bytes more : List UInt8} {a : α} {b : β}
    (first : Reads d bytes a) (next : Reads (f a) more b) : Reads (d >>= f) (bytes ++ more) b := by
  intro rest
  rw [StateT.run_bind, List.append_assoc, first]
  exact next rest

theorem Reads.map {d : Decoder α} {bytes : List UInt8} {a : α} (f : α → β) (first : Reads d bytes a) :
    Reads (f <$> d) bytes (f a) := by
  intro rest
  rw [StateT.run_map, first]
  rfl

/-- The last step of a decoder, after which nothing is read. -/
theorem Reads.yields {d : Decoder α} {f : α → Decoder β} {bytes : List UInt8} {a : α} {b : β}
    (first : Reads d bytes a) (done : f a = Pure.pure b) : Reads (d >>= f) bytes b := by
  intro rest
  rw [StateT.run_bind, first]
  change (f a).run rest = some (b, rest)
  rw [done]
  rfl

/-! ## Building blocks -/

def take (n : Nat) : Decoder (List UInt8) := fun bytes => readExact n bytes

def number (width : Nat) : Decoder Nat := ofLe <$> take width

/-- One byte that is zero or one. -/
def flag : Decoder Bool := do
  match ← number 1 with
  | 0 => return false
  | 1 => return true
  | _ => failure

def encodeFlag (b : Bool) : List UInt8 := [if b then 1 else 0]

/-- A byte that says whether a value follows. -/
def option (d : Decoder α) : Decoder (Option α) := do
  if ← flag then some <$> d else return none

def encodeOption (encode : α → List UInt8) : Option α → List UInt8
  | none => encodeFlag false
  | some a => encodeFlag true ++ encode a

/-- `n` values one after another. -/
def items (d : Decoder α) : Nat → Decoder (List α)
  | 0 => return []
  | n + 1 => do
      let a ← d
      let rest ← items d n
      return a :: rest

theorem reads_take {n : Nat} {bytes : List UInt8} (length : bytes.length = n) : Reads (take n) bytes bytes :=
  fun rest => readExact_append length rest

theorem reads_number {width n : Nat} (fits : n < 256 ^ width) : Reads (number width) (le width n) n := by
  have read := (reads_take (length_le width n)).map ofLe
  rwa [ofLe_le_of_lt fits] at read

theorem reads_flag (b : Bool) : Reads flag (encodeFlag b) b := by
  intro rest
  cases b <;> rfl

theorem reads_option {d : Decoder α} {encode : α → List UInt8} {value : Option α}
    (each : ∀ a, value = some a → Reads d (encode a) a) : Reads (option d) (encodeOption encode value) value := by
  cases value with
  | none =>
      intro rest
      rfl
  | some a =>
      exact (reads_flag true).bind ((each a rfl).map some)

theorem reads_items {d : Decoder α} {encode : α → List UInt8} :
    ∀ {values : List α}, (∀ a ∈ values, Reads d (encode a) a) →
      Reads (items d values.length) (values.flatMap encode) values := by
  intro values
  induction values with
  | nil => exact fun _ => Reads.pure []
  | cons a rest ih =>
      intro each
      obtain ⟨first, others⟩ := List.forall_mem_cons.mp each
      exact first.bind (f := fun a => items d rest.length >>= fun rest => return a :: rest)
        ((ih others).yields rfl)

end Lib.Codec
