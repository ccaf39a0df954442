import Deltat.WalRoundTrip

/-! # Damage in the middle of the log

The bytes of one record are overwritten while intact records follow it. Whether the reader
reports this is decided by the length it finds there: a length that reaches the end of the
file or beyond, or one that is implausible near the end, passes for a torn tail.
-/

namespace Deltat

open Lib Lib.Bytes

namespace Wal

variable {k : Crates}

/-! ## One damaged frame -/

/-- The payload and the checksum of the frame that the bytes begin with, if all of it is there. -/
def frameAt (bytes : List UInt8) : Option (List UInt8 × List UInt8) := do
  let (lenBuf, rest) ← readExact 4 bytes
  let (payload, rest) ← readExact (ofLe lenBuf) rest
  let (crcBuf, _) ← readExact 4 rest
  return (payload, crcBuf)

/-- The checksum shows that the frame at the front is not one that was written. -/
def Detected (k : Crates) (bytes : List UInt8) : Prop :=
  ∀ payload crcBuf, frameAt bytes = some (payload, crcBuf) → ofLe crcBuf ≠ (k.crc32 payload).toNat

/-- The frame at the front, taken at its word but never longer than a record can be, ends
    before the bytes do. -/
def EndsInside (bytes : List UInt8) : Prop :=
  min (ofLe (bytes.take 4)) maxWalRecordBytes + recordFramingBytes < bytes.length

/-- A damaged frame is reported exactly when it ends inside the file. -/
theorem scanFrom_damaged (fuel : Nat) (acc : List Event) {fileLen validLen : Nat} {rest : List UInt8}
    (size : fileLen = validLen + rest.length) (detected : Detected k rest) :
    (EndsInside rest → ∃ error, scanFrom k fileLen (fuel + 1) acc validLen rest = .error error) ∧
      (¬ EndsInside rest → scanFrom k fileLen (fuel + 1) acc validLen rest = .ok (acc, validLen)) := by
  unfold EndsInside
  rw [scanFrom]
  cases first : readExact 4 rest with
  | none =>
      rw [readExact_none] at first
      simp only [recordFramingBytes]
      exact ⟨fun inside => by omega, fun _ => trivial⟩
  | some read =>
      obtain ⟨lenBuf, body⟩ := read
      obtain ⟨rfl, lenSize⟩ := readExact_some.mp first
      rw [List.take_left' lenSize]
      rw [List.length_append, lenSize] at size ⊢
      simp only
      by_cases implausible : ofLe lenBuf > maxWalRecordBytes
      · rw [if_pos implausible, Nat.min_eq_right (Nat.le_of_lt implausible)]
        split
        · next near => exact ⟨fun inside => by omega, fun _ => rfl⟩
        · next far => exact ⟨fun _ => ⟨_, rfl⟩, fun outside => by omega⟩
      · rw [if_neg implausible, Nat.min_eq_left (Nat.le_of_not_lt implausible)]
        cases second : readExact (ofLe lenBuf) body with
        | none =>
            rw [readExact_none] at second
            simp only [recordFramingBytes]
            exact ⟨fun inside => by omega, fun _ => trivial⟩
        | some read =>
            obtain ⟨payload, body⟩ := read
            obtain ⟨rfl, payloadSize⟩ := readExact_some.mp second
            rw [List.length_append, payloadSize] at size ⊢
            simp only
            cases third : readExact 4 body with
            | none =>
                rw [readExact_none] at third
                simp only [recordFramingBytes]
                exact ⟨fun inside => by omega, fun _ => trivial⟩
            | some read =>
                obtain ⟨crcBuf, after⟩ := read
                have whole : frameAt (lenBuf ++ (payload ++ body)) = some (payload, crcBuf) := by
                  simp only [frameAt, first, second, third, bind, Option.bind, pure]
                obtain ⟨rfl, crcSize⟩ := readExact_some.mp third
                simp only
                rw [List.length_append, crcSize] at size ⊢
                rw [if_pos (detected payload crcBuf whole)]
                split
                · next atTail =>
                    simp only [decide_eq_true_eq] at atTail
                    exact ⟨fun inside => by omega, fun _ => rfl⟩
                · next inside =>
                    simp only [decide_eq_true_eq] at inside
                    simp only [recordFramingBytes] at *
                    exact ⟨fun _ => ⟨_, rfl⟩, fun outside => by omega⟩

/-! ## A log with one record damaged -/

/-- A log of intact records, with or without a header, of which one that is not the last has
    its bytes replaced. -/
structure Damaged (k : Crates) where
  version : Option Nat
  before : List Event
  victim : Event
  after : List Event
  bytes : List UInt8
  known : ∀ v, version = some v → v ≤ formatVersion
  good : ∀ ev ∈ before ++ victim :: after, Loggable ev
  followed : after ≠ []
  length : bytes.length = (encodeEvent k victim).length

namespace Damaged

variable (d : Damaged k)

def head : List UInt8 := (d.version.map header).getD []

def file : List UInt8 :=
  d.head ++ (d.before.flatMap (encodeEvent k) ++ (d.bytes ++ d.after.flatMap (encodeEvent k)))

/-- Where the damaged record is. -/
def position : Nat := d.head.length + (d.before.flatMap (encodeEvent k)).length

/-- Where the reader comes upon it: there, unless damage at the very start reads as a header. -/
def reached : Nat :=
  match readHeader d.file with
  | .ok (start, _) => max start d.position
  | .error _ => d.position

/-- The records that are as they were written. -/
def intact : List Event := d.before ++ d.after

end Damaged

/-- Neither replay nor a replay after `open` lacks one of these events. -/
structure NoSilentLoss (k : Crates) (file : List UInt8) (intact : List Event) : Prop where
  replay : ∀ events, replay k (some file) = .ok events → intact.Sublist events
  reopened : ∀ staged wal, «open» k ⟨some file, staged⟩ = .ok wal →
    ∀ events, Wal.replay k wal.disk.file = .ok events → intact.Sublist events

/-- The length of an intact record is never the magic. -/
theorem readHeader_record {ev : Event} (short : ev.serialize.length ≤ maxWalRecordBytes) (rest : List UInt8) :
    readHeader (encodeEvent k ev ++ rest) = .ok (0, legacyFormatVersion) := by
  have unmarked : (encodeEvent k ev ++ rest).take magic.length ≠ magic := by
    intro marked
    have four := congrArg (List.take 4) marked
    rw [List.take_take, encodeEvent, List.append_assoc] at four
    have taken : (le 4 ev.serialize.length ++ ((ev.serialize ++ le 4 (k.crc32 ev.serialize).toNat) ++ rest)).take
        (min 4 magic.length) = le 4 ev.serialize.length := List.take_left' (length_le 4 _)
    have value := congrArg ofLe (taken.symm.trans four)
    rw [lengthPrefix short] at value
    have huge : ofLe (magic.take 4) > maxWalRecordBytes := by decide
    omega
  unfold readHeader
  rw [if_pos unmarked]
  split <;> rfl

/-- The reader gets through the records before the damaged one, or refuses the file. -/
theorem scan_damaged (decodes : k.Decodes) (d : Damaged k) {start version : Nat}
    (read : readHeader d.file = .ok (start, version)) :
    ∃ fuel, scan k (some d.file) =
      (scanFrom k d.file.length (fuel + 1) d.before d.reached (d.file.drop d.reached)).map
        fun read => (read.1, read.2, version) := by
  have goodBefore : ∀ ev ∈ d.before, Loggable ev := fun ev inside => d.good ev (List.mem_append_left _ inside)
  have reached : d.reached = max start d.position := by simp only [Damaged.reached, read]
  by_cases direct : start = d.head.length
  · -- The header, or its absence, is read as it was written.
    have here : d.reached = d.head.length + (d.before.flatMap (encodeEvent k)).length := by
      rw [reached, direct, Damaged.position]
      omega
    obtain ⟨fuel, onward⟩ := scan_records decodes goodBefore (direct ▸ read)
    refine ⟨fuel, ?_⟩
    have size : d.file.length = d.head.length + ((d.before.flatMap (encodeEvent k)).length +
        (d.bytes ++ d.after.flatMap (encodeEvent k)).length) := by
      rw [Damaged.file, List.length_append, List.length_append]
    have dropped : d.file.drop d.reached = d.bytes ++ d.after.flatMap (encodeEvent k) := by
      rw [here, Damaged.file, ← List.append_assoc, List.drop_left' (List.length_append ..)]
    rw [size, dropped, here]
    exact onward
  · -- Only a file without a header whose first record is the damaged one can be misread.
    have headless : d.head = [] := by
      cases marked : d.version with
      | none => simp only [Damaged.head, marked, Option.map_none, Option.getD_none]
      | some v =>
          have shape : d.head = header v := by simp only [Damaged.head, marked, Option.map_some, Option.getD_some]
          rw [Damaged.file, shape, readHeader_header (d.known v marked)] at read
          obtain ⟨rfl, _⟩ := Prod.mk.inj (Except.ok.inj read)
          exact absurd (shape ▸ (length_header v).symm) direct
    have first : d.before = [] := by
      cases records : d.before with
      | nil => rfl
      | cons ev rest =>
          have short := (goodBefore ev (by rw [records]; exact List.mem_cons_self)).short
          rw [Damaged.file, headless, records, List.nil_append, List.flatMap_cons, List.append_assoc,
            readHeader_record short] at read
          obtain ⟨rfl, _⟩ := Prod.mk.inj (Except.ok.inj read)
          rw [headless] at direct
          exact absurd rfl direct
    have here : d.reached = start := by
      rw [reached, Damaged.position, headless, first]
      simp
    rw [here, first]
    exact ⟨d.file.length, scan_of_header read⟩

theorem length_reached (d : Damaged k) {start version : Nat} (read : readHeader d.file = .ok (start, version)) :
    d.file.length = d.reached + (d.file.drop d.reached).length := by
  have reached : d.reached = max start d.position := by simp only [Damaged.reached, read]
  have position : d.position ≤ d.file.length := by
    rw [Damaged.position, Damaged.file, List.length_append, List.length_append]
    omega
  have begins : start ≤ d.file.length := by
    unfold readHeader at read
    split at read
    · obtain ⟨rfl, _⟩ := Prod.mk.inj (Except.ok.inj read)
      exact Nat.zero_le _
    · next long =>
        split at read
        · obtain ⟨rfl, _⟩ := Prod.mk.inj (Except.ok.inj read)
          exact Nat.zero_le _
        · simp only at read
          split at read
          · cases read
          · obtain ⟨rfl, _⟩ := Prod.mk.inj (Except.ok.inj read)
            exact Nat.le_of_not_lt long
  rw [List.length_drop]
  omega

/-- Damage in the middle of the log loses nothing silently exactly when the file is refused,
    or the damaged frame, by the length now found there, ends before the end of the file. -/
theorem noSilentLoss_iff (decodes : k.Decodes) (d : Damaged k) (detected : Detected k (d.file.drop d.reached)) :
    NoSilentLoss k d.file d.intact ↔
      (∃ error, readHeader d.file = .error error) ∨ EndsInside (d.file.drop d.reached) := by
  cases read : readHeader d.file with
  | error error =>
      have refused : scan k (some d.file) = .error error := by simp only [scan, read, bind, Except.bind]
      refine iff_of_true ⟨fun events ok => ?_, fun staged wal ok => ?_⟩ (.inl ⟨error, rfl⟩)
      · simp only [replay, refused, bind, Except.bind, reduceCtorEq] at ok
      · simp only [«open», refused, bind, Except.bind, reduceCtorEq] at ok
  | ok header =>
      obtain ⟨start, version⟩ := header
      obtain ⟨fuel, scanned⟩ := scan_damaged decodes d read
      have outcome := scanFrom_damaged fuel d.before (length_reached d read) detected
      constructor
      · intro kept
        refine .inr ?_
        by_contra outside
        rw [outcome.2 outside] at scanned
        have replayed : replay k (some d.file) = .ok d.before := by
          simp only [replay, scanned, bind, Except.bind, Except.map, pure, Except.pure]
        have length := (kept.replay d.before replayed).length_le
        have more := List.length_pos_iff.mpr d.followed
        rw [Damaged.intact, List.length_append] at length
        omega
      · intro ends
        obtain ⟨error, failed⟩ := outcome.1 (ends.resolve_left (by rintro ⟨_, refused⟩; cases refused))
        rw [failed] at scanned
        refine ⟨fun events ok => ?_, fun staged wal ok => ?_⟩
        · simp only [replay, scanned, bind, Except.bind, Except.map, reduceCtorEq] at ok
        · simp only [«open», scanned, bind, Except.bind, Except.map, reduceCtorEq] at ok

theorem two_deletions_good : ∀ ev ∈ [] ++ Event.resourceDeleted 1 :: [.resourceDeleted 2], Loggable ev := by
  rintro ev (_ | ⟨_, _ | ⟨_, ⟨⟩⟩⟩) <;> exact ⟨trivial, rfl, by decide⟩

theorem format_two_known : ∀ v, some 2 = some v → v ≤ formatVersion := by
  rintro v ⟨⟩
  decide

theorem wrongChecksum_length : ((encodeEvent .bundled (.resourceDeleted 1)).dropLast ++ [0]).length =
    (encodeEvent .bundled (.resourceDeleted 1)).length := by decide

theorem stretched_length : (0xFF :: (encodeEvent .bundled (.resourceDeleted 1)).tail).length =
    (encodeEvent .bundled (.resourceDeleted 1)).length := by decide

/-- Two records, the checksum of the first overwritten. -/
def wrongChecksum : Damaged .bundled where
  version := some 2
  before := []
  victim := .resourceDeleted 1
  after := [.resourceDeleted 2]
  bytes := (encodeEvent .bundled (.resourceDeleted 1)).dropLast ++ [0]
  known := format_two_known
  good := two_deletions_good
  followed := List.cons_ne_nil _ _
  length := wrongChecksum_length

theorem wrongChecksum_reported : NoSilentLoss .bundled wrongChecksum.file wrongChecksum.intact := by
  have detected : Detected .bundled (wrongChecksum.file.drop wrongChecksum.reached) := by
    intro payload crcBuf whole
    have frame : frameAt (wrongChecksum.file.drop wrongChecksum.reached) =
        some ((Event.resourceDeleted 1).serialize, wrongChecksum.bytes.drop 42) := by decide +kernel
    obtain ⟨rfl, rfl⟩ := Prod.mk.inj (Option.some.inj (frame.symm.trans whole))
    decide +kernel
  exact (noSilentLoss_iff bundled_decodes wrongChecksum detected).mpr
    (.inr (by unfold EndsInside; decide +kernel))

/-- Two records, the length of the first raised past the end of the file. -/
def stretched : Damaged .bundled where
  version := some 2
  before := []
  victim := .resourceDeleted 1
  after := [.resourceDeleted 2]
  bytes := 0xFF :: (encodeEvent .bundled (.resourceDeleted 1)).tail
  known := format_two_known
  good := two_deletions_good
  followed := List.cons_ne_nil _ _
  length := stretched_length

/-- The reader takes the damaged record for a torn tail and drops the intact one behind it. -/
theorem stretched_loses_a_record :
    Detected .bundled (stretched.file.drop stretched.reached) ∧
      replay .bundled (some stretched.file) = .ok [] ∧ ¬ NoSilentLoss .bundled stretched.file stretched.intact := by
  have nothing : replay .bundled (some stretched.file) = .ok [] := by rfl
  refine ⟨fun payload crcBuf whole => ?_, nothing, fun kept => ?_⟩
  · have absent : frameAt (stretched.file.drop stretched.reached) = none := by decide +kernel
    cases absent.symm.trans whole
  · have lost := (kept.replay [] nothing).length_le
    exact absurd lost (by decide)

end Wal

end Deltat
