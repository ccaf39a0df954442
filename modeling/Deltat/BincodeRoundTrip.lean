import Deltat.Bincode

/-! # Records decode to what was encoded

Every payload written for an event whose values fit their machine types is read back as that
event, and its length is known from the event's texts.
-/

namespace Deltat

open Lib.Bytes Lib.Codec Bincode Limits

/-! ## Values that fit their machine types -/

def Bincode.FitsMs (ms : Ms) : Prop := i64Min ≤ ms ∧ ms ≤ i64Max

def Bincode.FitsText (s : String) : Prop := s.utf8ByteSize < 2 ^ 64

def Span.Fits (span : Span) : Prop := FitsMs span.start ∧ FitsMs span.end

structure HoldCommit.Fits (c : HoldCommit) : Prop where
  span : c.span.Fits
  label : ∀ s, c.label = some s → FitsText s

/-- What the machine types of an event's fields guarantee. -/
def Event.Representable : Event → Prop
  | resourceCreated _ _ name _ bufferAfter =>
      (∀ s, name = some s → FitsText s) ∧ ∀ ms, bufferAfter = some ms → FitsMs ms
  | resourceUpdated _ name _ bufferAfter =>
      (∀ s, name = some (some s) → FitsText s) ∧ ∀ ms, bufferAfter = some (some ms) → FitsMs ms
  | ruleAdded _ _ span _ | ruleUpdated _ _ span _ => span.Fits
  | holdPlaced _ _ span expiresAt => span.Fits ∧ FitsMs expiresAt
  | bookingConfirmed _ _ span label => span.Fits ∧ ∀ s, label = some s → FitsText s
  | holdsCommitted commits => commits.length < 2 ^ 64 ∧ ∀ c ∈ commits, c.Fits
  | resourceDeleted _ | ruleRemoved _ _ | holdReleased _ _ | bookingCancelled _ _ => True

namespace Bincode

/-! ## Fields -/

theorem symbolValue_symbol (x : Nat) : symbolValue (symbol x) = some (x % 32) := by
  have each : ∀ d < 32, symbolValue (symbols.getD d 0) = some d := by decide
  exact each (x % 32) (Nat.mod_lt x (by decide))

theorem length_encodeDigits (n x : Nat) : (encodeDigits n x).length = n := by
  induction n generalizing x with
  | zero => rfl
  | succ n ih => rw [encodeDigits, List.length_append, ih, List.length_singleton]

theorem decodeDigits_encodeDigits (n x : Nat) : decodeDigits (encodeDigits n x) = some (x % 32 ^ n) := by
  induction n generalizing x with
  | zero => simp [encodeDigits, decodeDigits, Nat.mod_one]
  | succ n ih =>
      unfold decodeDigits at ih ⊢
      rw [encodeDigits, List.foldlM_append, ih, Option.bind_eq_bind, Option.bind_some, List.foldlM_cons,
        symbolValue_symbol]
      simp only [Option.map_some, List.foldlM_nil, Option.bind_eq_bind, Option.bind_some, Option.pure_def]
      rw [pow_succ', Nat.mod_mul, Nat.add_comm]

theorem reads_string {bytes : List UInt8} (fits : bytes.length < 2 ^ 64) :
    Reads getString (putString bytes) bytes := by
  have prefixed : Reads (number 8) (le 8 bytes.length) bytes.length := reads_number fits
  exact prefixed.bind (reads_take rfl)

theorem reads_text {s : String} (fits : FitsText s) : Reads getText (putText s) s := by
  refine (reads_string fits).yields ?_
  have decoded : String.fromUTF8? ⟨s.toByteArray.data.toList.toArray⟩ = some s := by
    rw [Array.toArray_toList]
    exact dif_pos s.isValidUTF8
  rw [decoded]

theorem reads_ulid (id : Ulid) : Reads getUlid (putUlid id) id := by
  have length := length_encodeDigits 26 id.val
  have short : (encodeDigits 26 id.val).length < 2 ^ 64 := by rw [length]; decide
  have small : id.val < 32 ^ 26 := id.isLt.trans (by norm_num)
  refine (reads_string short).yields ?_
  simp only [decodeDigits_encodeDigits, Nat.mod_eq_of_lt small, length, ↓reduceIte]
  rw [Fin.ofNat_val_eq_self]

/-- The signed number a remainder stands for. -/
theorem bmod_remainder {n : Nat} (positive : 0 < n) {x : Int} (lower : -(n / 2) ≤ x) (upper : x < (n + 1) / 2) :
    Int.bmod ((x % n).toNat : Nat) n = x := by
  have low : 0 ≤ x % (n : Int) := Int.emod_nonneg x (by omega)
  rw [Int.toNat_of_nonneg low, Int.emod_bmod, Int.bmod_eq_of_le lower upper]

theorem reads_ms {ms : Ms} (fits : FitsMs ms) : Reads getMs (putMs ms) ms := by
  obtain ⟨lower, upper⟩ := fits
  have power : ((2 ^ 64 : Nat) : Int) = 2 ^ 64 := by norm_num
  have value : Int.bmod ((ms % (2 ^ 64 : Nat)).toNat : Nat) (2 ^ 64) = ms := by
    refine bmod_remainder (by norm_num) ?_ ?_
    · simp only [i64Min] at lower
      norm_num at lower ⊢
      exact lower
    · simp only [i64Max] at upper
      norm_num at upper ⊢
      lia
  have high : (ms % (2 ^ 64 : Nat)).toNat < 256 ^ 8 := by
    have below := Int.emod_lt_of_pos ms (show (0 : Int) < (2 ^ 64 : Nat) by norm_num)
    have width : (256 : Nat) ^ 8 = 2 ^ 64 := by norm_num
    rw [width]
    omega
  rw [power] at value high
  have read := (reads_number high).map fun n : Nat => Int.bmod n (2 ^ 64)
  rw [value] at read
  exact read

theorem reads_span {span : Span} (fits : span.Fits) : Reads getSpan (putSpan span) span :=
  (reads_ms fits.1).bind ((reads_ms fits.2).yields rfl)

theorem reads_u32 (n : UInt32) : Reads getU32 (putU32 n) n := by
  have fits : n.toNat < 256 ^ 4 := n.toNat_lt
  have read := (reads_number fits).map UInt32.ofNat
  rw [UInt32.ofNat_toNat] at read
  exact read

theorem reads_commit {c : HoldCommit} (fits : c.Fits) : Reads getCommit (putCommit c) c :=
  (reads_ulid c.holdId).bind ((reads_ulid c.bookingId).bind ((reads_ulid c.resourceId).bind
    ((reads_span fits.span).bind ((reads_option fun s some => reads_text (fits.label s some)).yields rfl))))

theorem reads_tag {tag : Nat} (small : tag < 11) : Reads (number 4) (le 4 tag) tag :=
  reads_number (small.trans (by norm_num))

/-- What is written for an event is read back as the event. -/
theorem reads_event {ev : Event} (fits : ev.Representable) : Reads getEvent ev.serialize ev := by
  cases ev with
  | resourceCreated id parentId name capacity bufferAfter =>
      exact (reads_tag (by decide)).bind ((reads_ulid id).bind ((reads_option fun p _ => reads_ulid p).bind
        ((reads_option fun s some => reads_text (fits.1 s some)).bind ((reads_u32 capacity).bind
          ((reads_option fun ms some => reads_ms (fits.2 ms some)).yields rfl)))))
  | resourceUpdated id name capacity bufferAfter =>
      exact (reads_tag (by decide)).bind ((reads_ulid id).bind
        ((reads_option fun n some => reads_option fun s named => reads_text (fits.1 s (by rw [some, named]))).bind
          ((reads_option fun c _ => reads_u32 c).bind
            ((reads_option fun b some => reads_option fun ms set => reads_ms (fits.2 ms (by rw [some, set]))).yields
              rfl))))
  | resourceDeleted id =>
      exact (reads_tag (by decide)).bind ((reads_ulid id).yields rfl)
  | ruleAdded id resourceId span blocking =>
      exact (reads_tag (by decide)).bind ((reads_ulid id).bind ((reads_ulid resourceId).bind
        ((reads_span fits).bind ((reads_flag blocking).yields rfl))))
  | ruleUpdated id resourceId span blocking =>
      exact (reads_tag (by decide)).bind ((reads_ulid id).bind ((reads_ulid resourceId).bind
        ((reads_span fits).bind ((reads_flag blocking).yields rfl))))
  | ruleRemoved id resourceId =>
      exact (reads_tag (by decide)).bind ((reads_ulid id).bind ((reads_ulid resourceId).yields rfl))
  | holdPlaced id resourceId span expiresAt =>
      exact (reads_tag (by decide)).bind ((reads_ulid id).bind ((reads_ulid resourceId).bind
        ((reads_span fits.1).bind ((reads_ms fits.2).yields rfl))))
  | holdReleased id resourceId =>
      exact (reads_tag (by decide)).bind ((reads_ulid id).bind ((reads_ulid resourceId).yields rfl))
  | bookingConfirmed id resourceId span label =>
      exact (reads_tag (by decide)).bind ((reads_ulid id).bind ((reads_ulid resourceId).bind
        ((reads_span fits.1).bind ((reads_option fun s some => reads_text (fits.2 s some)).yields rfl))))
  | bookingCancelled id resourceId =>
      exact (reads_tag (by decide)).bind ((reads_ulid id).bind ((reads_ulid resourceId).yields rfl))
  | holdsCommitted commits =>
      exact (reads_tag (by decide)).bind ((reads_number fits.1).bind
        ((reads_items fun c inside => reads_commit (fits.2 c inside)).yields rfl))

end Bincode

theorem Event.deserialize_serialize {ev : Event} (fits : ev.Representable) :
    Event.deserialize ev.serialize = some ev := by
  have read := reads_event fits []
  rw [List.append_nil] at read
  rw [Event.deserialize, read]
  rfl

/-- The golden encoding that the format's history keeps of a release. -/
example : (Event.holdReleased 24 25).serialize =
    [7, 0, 0, 0] ++ (([26, 0, 0, 0, 0, 0, 0, 0] ++ (List.replicate 25 48 ++ [82])) ++
      ([26, 0, 0, 0, 0, 0, 0, 0] ++ (List.replicate 25 48 ++ [83]))) := by decide

/-! ## Lengths -/

namespace Bincode

/-- The bytes of an optional text. -/
def textSize (text : Option String) : Nat := (text.map fun s => 8 + s.utf8ByteSize).getD 0

theorem length_encodeOption {α : Type} (encode : α → List UInt8) (value : Option α) :
    (encodeOption encode value).length = 1 + (value.map fun a => (encode a).length).getD 0 := by
  cases value with
  | none => rfl
  | some a => simp [encodeOption, encodeFlag, Nat.add_comm]

@[simp] theorem length_putText (s : String) : (putText s).length = 8 + s.utf8ByteSize := by
  have size : s.toByteArray.data.toList.length = s.utf8ByteSize := rfl
  rw [putText, putString, List.length_append, length_le, size]

@[simp] theorem length_putUlid (id : Ulid) : (putUlid id).length = 34 := by
  rw [putUlid, putString, List.length_append, length_le, length_encodeDigits]

@[simp] theorem length_putMs (ms : Ms) : (putMs ms).length = 8 := length_le 8 _

@[simp] theorem length_putSpan (span : Span) : (putSpan span).length = 16 := by
  rw [putSpan, List.length_append, length_putMs, length_putMs]

@[simp] theorem length_putU32 (n : UInt32) : (putU32 n).length = 4 := length_le 4 _

@[simp] theorem length_encodeFlag (b : Bool) : (encodeFlag b).length = 1 := rfl

theorem length_putLabel (label : Option String) : (encodeOption putText label).length = 1 + textSize label := by
  simp only [length_encodeOption, length_putText, textSize]

/-- One entry of a commit takes 119 bytes and its label. -/
theorem length_putCommit (c : HoldCommit) : (putCommit c).length = 119 + textSize c.label := by
  simp only [putCommit, List.length_append, length_putUlid, length_putSpan, length_putLabel]
  omega

end Bincode

/-- The payload of a commit's record grows with its entries and their labels. -/
theorem Event.length_holdsCommitted (commits : List HoldCommit) :
    (Event.holdsCommitted commits).serialize.length =
      12 + (commits.map fun c => 119 + textSize c.label).sum := by
  simp only [Event.serialize, List.length_append, length_le, List.length_flatMap, length_putCommit]
  omega

/-- The limits that operations put on the texts and the lists of what they record. -/
def Event.ShortTexts : Event → Prop
  | resourceCreated _ _ name _ _ => ∀ s, name = some s → s.utf8ByteSize ≤ maxNameLen
  | resourceUpdated _ name _ _ => ∀ s, name = some (some s) → s.utf8ByteSize ≤ maxNameLen
  | bookingConfirmed _ _ _ label => ∀ s, label = some s → s.utf8ByteSize ≤ maxLabelLen
  | holdsCommitted commits => commits.length ≤ maxBatchSize ∧
      ∀ c ∈ commits, ∀ s, c.label = some s → s.utf8ByteSize ≤ maxLabelLen
  | _ => True

namespace Bincode

theorem textSize_le {text : Option String} {limit : Nat} (short : ∀ s, text = some s → s.utf8ByteSize ≤ limit) :
    textSize text ≤ 8 + limit := by
  cases text with
  | none => exact Nat.zero_le _
  | some s => exact Nat.add_le_add_left (short s rfl) 8

theorem length_option_le {α : Type} {encode : α → List UInt8} {value : Option α} {bound : Nat}
    (each : ∀ a, value = some a → (encode a).length ≤ bound) : (encodeOption encode value).length ≤ 1 + bound := by
  rw [length_encodeOption]
  cases value with
  | none => exact Nat.le_add_right 1 bound
  | some a => exact Nat.add_le_add_left (each a rfl) 1

end Bincode

/-- Every record but that of a commit is a few kilobytes at most. -/
theorem Event.length_serialize_le {ev : Event} (short : ev.ShortTexts) (single : ∀ commits, ev ≠ .holdsCommitted commits) :
    ev.serialize.length ≤ 10100 := by
  cases ev with
  | resourceCreated id parentId name capacity bufferAfter =>
      have named : (encodeOption putText name).length ≤ 1 + (8 + maxNameLen) :=
        length_option_le fun s some => by
          rw [length_putText]
          exact Nat.add_le_add_left (short s some) 8
      have parent : (encodeOption putUlid parentId).length ≤ 1 + 34 :=
        length_option_le fun p _ => (length_putUlid p).le
      have buffer : (encodeOption putMs bufferAfter).length ≤ 1 + 8 :=
        length_option_le fun ms _ => (length_putMs ms).le
      simp only [Event.serialize, List.length_append, length_le, length_putUlid, length_putU32, maxNameLen] at *
      omega
  | resourceUpdated id name capacity bufferAfter =>
      have named : (encodeOption (encodeOption putText) name).length ≤ 1 + (1 + (8 + maxNameLen)) :=
        length_option_le fun n some => length_option_le fun s set => by
          rw [length_putText]
          exact Nat.add_le_add_left (short s (by rw [some, set])) 8
      have capacity : (encodeOption putU32 capacity).length ≤ 1 + 4 :=
        length_option_le fun c _ => (length_putU32 c).le
      have buffer : (encodeOption (encodeOption putMs) bufferAfter).length ≤ 1 + (1 + 8) :=
        length_option_le fun b _ => length_option_le fun ms _ => (length_putMs ms).le
      simp only [Event.serialize, List.length_append, length_le, length_putUlid, maxNameLen] at *
      omega
  | bookingConfirmed id resourceId span label =>
      have labelled := textSize_le short
      simp only [Event.serialize, List.length_append, length_le, length_putUlid, length_putSpan,
        length_putLabel, maxLabelLen] at *
      omega
  | holdsCommitted commits => exact absurd rfl (single commits)
  | resourceDeleted | ruleAdded | ruleUpdated | ruleRemoved | holdPlaced | holdReleased | bookingCancelled =>
      simp only [Event.serialize, List.length_append, length_le, length_putUlid, length_putSpan, length_putMs,
        length_encodeFlag]
      norm_num

end Deltat
