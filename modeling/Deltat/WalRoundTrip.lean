import Deltat.BincodeRoundTrip
import Deltat.Lib.Frames
import Deltat.Wal

/-! # What the log reads back

Intact records are read back one after another, and a log cut anywhere is read back up to the
last record that lies wholly before the cut. Records that are too long to read back are
exactly those of commits whose entries and labels add up to more than one record may hold.
-/

namespace Deltat

open Lib Lib.Bytes Bincode

/-- The decoding that the log relies on: it reads back every event it can be given. -/
def Crates.Decodes (k : Crates) : Prop := ∀ ev : Event, ev.Representable → k.deserialize ev.serialize = some ev

namespace Wal

variable {k : Crates}

/-- An event whose record the log can read back. -/
structure Loggable (ev : Event) : Prop where
  representable : ev.Representable
  spansValid : ev.spansValid = true
  short : ev.serialize.length ≤ maxWalRecordBytes

theorem length_encodeEvent (ev : Event) :
    (encodeEvent k ev).length = recordFramingBytes + ev.serialize.length := by
  rw [encodeEvent, List.length_append, List.length_append, length_le, length_le, recordFramingBytes]
  omega

/-! ## The reading loop on intact and on torn records -/

section Loop

variable {ev : Event} {events acc : List Event} {fileLen fuel validLen : Nat} {rest : List UInt8}

theorem lengthPrefix (short : ev.serialize.length ≤ maxWalRecordBytes) :
    ofLe (le 4 ev.serialize.length) = ev.serialize.length := by
  refine ofLe_le_of_lt (short.trans_lt ?_)
  norm_num [maxWalRecordBytes]

theorem scanFrom_record (decodes : k.Decodes) (good : Loggable ev) :
    scanFrom k fileLen (fuel + 1) acc validLen (encodeEvent k ev ++ rest) =
      scanFrom k fileLen fuel (acc ++ [ev]) (validLen + (encodeEvent k ev).length) rest := by
  have checksum : ofLe (le 4 (k.crc32 ev.serialize).toNat) = (k.crc32 ev.serialize).toNat :=
    ofLe_le_of_lt (k.crc32 ev.serialize).toNat_lt
  have within : ¬ ev.serialize.length > maxWalRecordBytes := Nat.not_lt.mpr good.short
  rw [scanFrom, length_encodeEvent, encodeEvent, List.append_assoc, List.append_assoc,
    readExact_append (length_le 4 _)]
  simp only [lengthPrefix good.short, within, ↓reduceIte, readExact_append rfl,
    readExact_append (length_le 4 _), checksum, ne_eq, not_true_eq_false,
    decodes ev good.representable, good.spansValid]

theorem scanFrom_records (decodes : k.Decodes) (good : ∀ ev ∈ events, Loggable ev) :
    scanFrom k fileLen (fuel + events.length) acc validLen (events.flatMap (encodeEvent k) ++ rest) =
      scanFrom k fileLen fuel (acc ++ events) (validLen + (events.flatMap (encodeEvent k)).length) rest := by
  induction events generalizing acc validLen with
  | nil => simp
  | cons ev others ih =>
      obtain ⟨first, good⟩ := List.forall_mem_cons.mp good
      rw [List.flatMap_cons, List.append_assoc, List.length_cons, ← Nat.add_assoc,
        scanFrom_record decodes first, ih good, List.append_assoc, List.singleton_append, List.length_append,
        Nat.add_assoc]

/-- A proper prefix of a record ends the log. -/
theorem scanFrom_torn (short : ev.serialize.length ≤ maxWalRecordBytes) {tail : List UInt8}
    (cut : tail <+: encodeEvent k ev) (proper : tail.length < (encodeEvent k ev).length) :
    scanFrom k fileLen (fuel + 1) acc validLen tail = .ok (acc, validLen) := by
  have within : ¬ ev.serialize.length > maxWalRecordBytes := Nat.not_lt.mpr short
  rw [scanFrom]
  rcases readExact_cut cut (length_le 4 _) with ended | ⟨tail, rfl, cut, read⟩
  · rw [ended]
  rw [read]
  simp only [lengthPrefix short, within, ↓reduceIte]
  rcases readExact_cut cut rfl with ended | ⟨tail, rfl, cut, read⟩
  · rw [ended]
  rw [read]
  simp only
  -- The length and the payload are there, so the cut lies within the checksum.
  have ended : readExact 4 tail = none := by
    rw [readExact_none]
    simp only [length_encodeEvent, recordFramingBytes, List.length_append, length_le] at proper
    omega
  rw [ended]

/-- A record longer than the reader's bound is an error, whatever follows it. -/
theorem scanFrom_oversized (long : maxWalRecordBytes < ev.serialize.length) (counted : ev.serialize.length < 2 ^ 32)
    (size : fileLen = validLen + ((encodeEvent k ev).length + rest.length)) :
    scanFrom k fileLen (fuel + 1) acc validLen (encodeEvent k ev ++ rest) =
      .error (midLogCorruption validLen "implausible record length") := by
  have prefixed : ofLe (le 4 ev.serialize.length) = ev.serialize.length :=
    ofLe_le_of_lt (counted.trans_le (by norm_num))
  have beyond : ¬ fileLen - validLen ≤ recordFramingBytes + maxWalRecordBytes := by
    rw [length_encodeEvent] at size
    omega
  rw [scanFrom, encodeEvent, List.append_assoc, readExact_append (length_le 4 _)]
  simp only [prefixed, gt_iff_lt, long, ↓reduceIte, beyond]

end Loop

/-! ## Whole files and their prefixes -/

theorem length_header (version : Nat) : (header version).length = headerBytes := by
  rw [header, List.length_append, length_le, headerBytes]

theorem readHeader_header {version : Nat} (known : version ≤ formatVersion) (rest : List UInt8) :
    readHeader (header version ++ rest) = .ok (headerBytes, version) := by
  have long : ¬ (header version ++ rest).length < headerBytes := by
    rw [List.length_append, length_header]
    omega
  have small : version < 256 ^ 2 := known.trans_lt (by decide)
  have field : ofLe ((((header version) ++ rest).drop magic.length).take 2) = version := by
    rw [header, List.append_assoc, List.drop_left, List.take_left' (length_le 2 version), ofLe_le_of_lt small]
  have marked : ((header version) ++ rest).take magic.length = magic := by
    rw [header, List.append_assoc, List.take_left]
  have readable : ¬ version > formatVersion := Nat.not_lt.mpr known
  simp only [readHeader, long, ↓reduceIte, marked, ne_eq, not_true_eq_false, field, readable]

/-- A file that holds only a part of the header holds nothing. -/
theorem scan_header_cut {n : Nat} (short : n < headerBytes) :
    scan k (some ((header formatVersion).take n)) = .ok ([], 0, legacyFormatVersion) := by
  have cases : n = 0 ∨ n = 1 ∨ n = 2 ∨ n = 3 ∨ n = 4 ∨ n = 5 ∨ n = 6 ∨ n = 7 ∨ n = 8 ∨ n = 9 := by
    simp only [headerBytes, magic, List.length_cons, List.length_nil] at short
    omega
  rcases cases with rfl | rfl | rfl | rfl | rfl | rfl | rfl | rfl | rfl | rfl <;> rfl

theorem scan_of_header {bytes : List UInt8} {start version : Nat} (read : readHeader bytes = .ok (start, version)) :
    scan k (some bytes) = (scanFrom k bytes.length (bytes.length + 1) [] start (bytes.drop start)).map
      fun read => (read.1, read.2, version) := by
  simp only [scan, read, bind, Except.bind]
  cases scanFrom k bytes.length (bytes.length + 1) [] start (bytes.drop start) <;> rfl

theorem length_le_flatMap (events : List Event) : events.length ≤ (events.flatMap (encodeEvent k)).length := by
  induction events with
  | nil => exact Nat.zero_le _
  | cons ev rest ih =>
      rw [List.flatMap_cons, List.length_append, List.length_cons, length_encodeEvent, recordFramingBytes]
      omega

/-- After the header and intact records, the scan goes on with what follows them. -/
theorem scan_records (decodes : k.Decodes) {events : List Event} (good : ∀ ev ∈ events, Loggable ev)
    {head tail : List UInt8} {version : Nat}
    (start : readHeader (head ++ (events.flatMap (encodeEvent k) ++ tail)) = .ok (head.length, version)) :
    ∃ fuel, scan k (some (head ++ (events.flatMap (encodeEvent k) ++ tail))) =
      (scanFrom k (head.length + ((events.flatMap (encodeEvent k)).length + tail.length)) (fuel + 1) events
        (head.length + (events.flatMap (encodeEvent k)).length) tail).map
          fun read => (read.1, read.2, version) := by
  have enough := length_le_flatMap (k := k) events
  refine ⟨head.length + ((events.flatMap (encodeEvent k)).length + tail.length) - events.length, ?_⟩
  have fuel : head.length + ((events.flatMap (encodeEvent k)).length + tail.length) + 1 =
      head.length + ((events.flatMap (encodeEvent k)).length + tail.length) - events.length + 1 + events.length := by
    omega
  rw [scan_of_header start, List.drop_left, List.length_append, List.length_append, fuel,
    scanFrom_records decodes good, List.nil_append]

/-- Intact records, and after them nothing or a part of a record. -/
theorem scan_torn (decodes : k.Decodes) {events : List Event} (good : ∀ ev ∈ events, Loggable ev)
    {version : Nat} (known : version ≤ formatVersion) {later : List Event}
    (laterGood : ∀ ev ∈ later, Loggable ev) {tail : List UInt8} (torn : Frames.Torn (encodeEvent k) later tail) :
    scan k (some (header version ++ (events.flatMap (encodeEvent k) ++ tail))) =
      .ok (events, headerBytes + (events.flatMap (encodeEvent k)).length, version) := by
  have start := readHeader_header known (events.flatMap (encodeEvent k) ++ tail)
  rw [← length_header version] at start
  obtain ⟨fuel, read⟩ := scan_records decodes good start
  rw [read, length_header]
  rcases torn with rfl | ⟨ev, inside, cut, proper⟩
  · rfl
  · rw [scanFrom_torn (laterGood ev inside).short cut proper]
    rfl

theorem scan_fileOf (decodes : k.Decodes) {events : List Event} (good : ∀ ev ∈ events, Loggable ev) :
    scan k (some (fileOf k events)) = .ok (events, (fileOf k events).length, formatVersion) := by
  have none : Frames.Torn (encodeEvent k) [] [] := .inl rfl
  have whole := scan_torn decodes good (Nat.le_refl formatVersion) (fun _ inside => by cases inside) none
  rw [List.append_nil] at whole
  rw [fileOf, List.length_append, length_header, whole]

/-- The scan stops with an error at the first record that is too long. -/
theorem scan_fileOf_oversized (decodes : k.Decodes) {events : List Event}
    (good : ∀ ev ∈ events, ev.Representable ∧ ev.spansValid = true ∧ ev.serialize.length < 2 ^ 32) {ev : Event}
    (inside : ev ∈ events) (long : maxWalRecordBytes < ev.serialize.length) :
    ∃ error, scan k (some (fileOf k events)) = .error error := by
  cases first : events.find? (fun ev => decide (maxWalRecordBytes < ev.serialize.length)) with
  | none => exact absurd long (by simpa using List.find?_eq_none.mp first ev inside)
  | some ev =>
      obtain ⟨long, before, after, rfl, short⟩ := List.find?_eq_some_iff_append.mp first
      have goodBefore : ∀ b ∈ before, Loggable b := fun b inside =>
        have fits := good b (List.mem_append_left _ inside)
        ⟨fits.1, fits.2.1, by simpa using short b inside⟩
      have start := readHeader_header (Nat.le_refl formatVersion)
        (before.flatMap (encodeEvent k) ++ (ev :: after).flatMap (encodeEvent k))
      rw [← length_header formatVersion] at start
      obtain ⟨fuel, reached⟩ := scan_records decodes goodBefore start
      rw [fileOf, List.flatMap_append, reached, List.flatMap_cons,
        scanFrom_oversized (by simpa using long) (good ev (by simp)).2.2 (by
          rw [List.length_append, Nat.add_assoc])]
      exact ⟨_, rfl⟩

/-- The scan gives back exactly what was written when no record is too long for it. -/
theorem scan_fileOf_iff (decodes : k.Decodes) {events : List Event}
    (good : ∀ ev ∈ events, ev.Representable ∧ ev.spansValid = true ∧ ev.serialize.length < 2 ^ 32) :
    scan k (some (fileOf k events)) = .ok (events, (fileOf k events).length, formatVersion) ↔
      ∀ ev ∈ events, ev.serialize.length ≤ maxWalRecordBytes := by
  constructor
  · intro read ev inside
    refine Nat.le_of_not_lt fun long => ?_
    obtain ⟨error, failed⟩ := scan_fileOf_oversized decodes good inside long
    cases read.symm.trans failed
  · intro short
    exact scan_fileOf decodes fun ev inside => ⟨(good ev inside).1, (good ev inside).2.1, short ev inside⟩

theorem replay_fileOf (decodes : k.Decodes) {events : List Event} (good : ∀ ev ∈ events, Loggable ev) :
    replay k (some (fileOf k events)) = .ok events := by
  rw [replay, scan_fileOf decodes good]
  rfl

/-- What can be replayed at all has no record that is too long. -/
theorem short_of_replay (decodes : k.Decodes) {events : List Event}
    (good : ∀ ev ∈ events, ev.Representable ∧ ev.spansValid = true ∧ ev.serialize.length < 2 ^ 32)
    {read : List Event} (replayed : replay k (some (fileOf k events)) = .ok read) :
    ∀ ev ∈ events, ev.serialize.length ≤ maxWalRecordBytes := by
  intro ev inside
  refine Nat.le_of_not_lt fun long => ?_
  obtain ⟨error, failed⟩ := scan_fileOf_oversized decodes good inside long
  simp only [replay, failed, bind, Except.bind, Except.map, reduceCtorEq] at replayed

/-- The events that a cut of the file after `n` bytes keeps. -/
def kept (k : Crates) (events : List Event) (n : Nat) : List Event :=
  if n < headerBytes then [] else Frames.whole (encodeEvent k) events (n - headerBytes)

theorem kept_initial (events : List Event) (n : Nat) : kept k events n <+: events := by
  unfold kept
  split
  · exact List.nil_prefix
  · exact Frames.whole_prefix _ events _

/-- A cut behind a log keeps it, and the records behind it that lie before the cut. -/
theorem kept_append (before after : List Event) {n : Nat} (enough : (fileOf k before).length ≤ n) :
    kept k (before ++ after) n = before ++ Frames.whole (encodeEvent k) after (n - (fileOf k before).length) := by
  rw [fileOf, List.length_append, length_header] at enough
  rw [kept, if_neg (by omega), Frames.whole_append _ _ _ (by omega), fileOf, List.length_append, length_header,
    Nat.sub_add_eq]

theorem kept_good {events : List Event} (good : ∀ ev ∈ events, Loggable ev) (n : Nat) :
    ∀ ev ∈ kept k events n, Loggable ev :=
  fun ev inside => good ev ((kept_initial events n).subset inside)

/-- A cut of the file is a part of the header, or whole records and a part of one. -/
theorem take_fileOf (events : List Event) (n : Nat) :
    (n < headerBytes ∧ (fileOf k events).take n = (header formatVersion).take n) ∨
    (headerBytes ≤ n ∧ ∃ tail, (fileOf k events).take n = fileOf k (kept k events n) ++ tail ∧
      Frames.Torn (encodeEvent k) events tail) := by
  unfold fileOf kept
  rcases Nat.lt_or_ge n headerBytes with short | enough
  · refine .inl ⟨short, List.take_append_of_le_length ?_⟩
    rw [length_header]
    exact Nat.le_of_lt short
  · obtain ⟨tail, cut, torn⟩ := Frames.take_flatMap (encodeEvent k) events (n - headerBytes)
    refine .inr ⟨enough, tail, ?_, torn⟩
    rw [if_neg (Nat.not_lt.mpr enough), List.take_append, length_header, List.take_of_length_le (by
      rw [length_header]
      exact enough), cut, List.append_assoc]

/-- A log cut anywhere is read back up to the last record that lies before the cut. -/
theorem scan_cut (decodes : k.Decodes) {events : List Event} (good : ∀ ev ∈ events, Loggable ev) (n : Nat) :
    scan k (some ((fileOf k events).take n)) =
      if n < headerBytes then .ok ([], 0, legacyFormatVersion)
      else .ok (kept k events n, (fileOf k (kept k events n)).length, formatVersion) := by
  rcases take_fileOf (k := k) events n with ⟨short, cut⟩ | ⟨enough, tail, cut, torn⟩
  · rw [cut, if_pos short, scan_header_cut short]
  · rw [cut, if_neg (Nat.not_lt.mpr enough), fileOf, List.append_assoc,
      scan_torn decodes (kept_good good n) (Nat.le_refl formatVersion) good torn, List.length_append, length_header]

theorem replay_cut (decodes : k.Decodes) {events : List Event} (good : ∀ ev ∈ events, Loggable ev) (n : Nat) :
    replay k (some ((fileOf k events).take n)) = .ok (kept k events n) := by
  rw [replay, scan_cut decodes good]
  unfold kept
  split <;> rfl

/-! ## Opening and appending -/

theorem truncate_eq (bytes : List UInt8) (validLen : Nat) :
    (if bytes.length > validLen then bytes.take validLen else bytes) = bytes.take validLen := by
  split
  · rfl
  · next short => exact (List.take_of_length_le (Nat.le_of_not_lt short)).symm

/-- Opening a cut file leaves the header and the records before the cut. -/
theorem open_cut (decodes : k.Decodes) {events : List Event} (good : ∀ ev ∈ events, Loggable ev) (n : Nat)
    (staged : Option (List UInt8)) :
    «open» k ⟨some ((fileOf k events).take n), staged⟩ =
      .ok ⟨⟨some (fileOf k (kept k events n)), staged⟩, [], 0, false⟩ := by
  have nothing : fileOf k [] = header formatVersion := rfl
  unfold «open»
  rw [scan_cut decodes good]
  rcases take_fileOf (k := k) events n with ⟨short, cut⟩ | ⟨enough, tail, cut, _⟩
  · rw [if_pos short, kept, if_pos short, nothing]
    simp only [bind, Except.bind, pure, Except.pure, Option.getD_some, Nat.lt_irrefl, gt_iff_lt, and_false, ↓reduceIte]
    rw [truncate_eq]
    rfl
  · have nonempty : (fileOf k (kept k events n)).length ≠ 0 := by
      rw [fileOf, List.length_append, length_header, headerBytes]
      omega
    rw [if_neg (Nat.not_lt.mpr enough), cut]
    simp only [bind, Except.bind, pure, Except.pure, Option.getD_some, Nat.lt_irrefl, false_and, ↓reduceIte]
    rw [truncate_eq, List.take_left, if_neg nonempty]

theorem appendBuffered_all {wal : Wal} (running : wal.poisoned = false) (events : List Event) :
    events.foldlM (fun wal ev => appendBuffered k ev wal) wal =
      .ok { wal with
        buffer := wal.buffer ++ events.flatMap (encodeEvent k)
        appendsSinceCompact := wal.appendsSinceCompact + events.length } := by
  induction events generalizing wal with
  | nil => simp [pure, Except.pure]
  | cons ev rest ih =>
      have first : appendBuffered k ev wal = .ok { wal with
          buffer := wal.buffer ++ encodeEvent k ev
          appendsSinceCompact := wal.appendsSinceCompact + 1 } := by
        simp only [appendBuffered, running, Bool.false_eq_true, ↓reduceIte]
      rw [List.foldlM_cons, first]
      change List.foldlM _ _ rest = _
      rw [ih]
      · simp [Nat.add_assoc, Nat.add_comm rest.length]
      · exact running

theorem appendAndSync_ok {bytes : List UInt8} {staged : Option (List UInt8)} {count : Nat} (events : List Event) :
    appendAndSync k events ⟨⟨some bytes, staged⟩, [], count, false⟩ =
      .ok ⟨⟨some (bytes ++ events.flatMap (encodeEvent k)), staged⟩, [], count + events.length, false⟩ := by
  unfold appendAndSync
  rw [appendBuffered_all rfl]
  rfl

/-- Batches appended to a clean log extend its file by their records. -/
theorem appendBatches_ok (stored : List Event) (staged : Option (List UInt8)) (count : Nat)
    (batches : List (List Event)) :
    ∃ count', batches.foldlM (fun wal batch => appendAndSync k batch wal)
        ⟨⟨some (fileOf k stored), staged⟩, [], count, false⟩ =
      .ok ⟨⟨some (fileOf k (stored ++ batches.flatten)), staged⟩, [], count', false⟩ := by
  induction batches generalizing stored count with
  | nil => exact ⟨count, by simp [pure, Except.pure]⟩
  | cons batch rest ih =>
      obtain ⟨count', later⟩ := ih (stored ++ batch) (count + batch.length)
      refine ⟨count', ?_⟩
      have extended : fileOf k stored ++ batch.flatMap (encodeEvent k) = fileOf k (stored ++ batch) := by
        simp only [fileOf, List.flatMap_append, List.append_assoc]
      rw [List.foldlM_cons, appendAndSync_ok, extended]
      change List.foldlM _ _ rest = _
      rw [later, List.flatten_cons, List.append_assoc]

/-- A torn tail is survived exactly. Whatever prefix of a log of intact records a crash
    leaves: the scan returns the records that lie wholly inside it and where the last of them
    ends, and what is appended after reopening replays behind them. -/
theorem torn_tail_survived (decodes : k.Decodes) {events : List Event} (good : ∀ ev ∈ events, Loggable ev)
    (n : Nat) :
    scan k (some ((fileOf k events).take n)) =
        (if n < headerBytes then .ok ([], 0, legacyFormatVersion)
        else .ok (kept k events n, headerBytes + ((kept k events n).flatMap (encodeEvent k)).length, formatVersion)) ∧
      ∀ (staged : Option (List UInt8)) (batches : List (List Event)), (∀ batch ∈ batches, ∀ ev ∈ batch, Loggable ev) →
        ∃ opened wal, «open» k ⟨some ((fileOf k events).take n), staged⟩ = .ok opened ∧
          batches.foldlM (fun wal batch => appendAndSync k batch wal) opened = .ok wal ∧
          replay k wal.disk.file = .ok (kept k events n ++ batches.flatten) := by
  refine ⟨?_, fun staged batches goodBatches => ?_⟩
  · rw [scan_cut decodes good, fileOf, List.length_append, length_header]
  · obtain ⟨count, appended⟩ := appendBatches_ok (kept k events n) staged 0 batches
    refine ⟨_, _, open_cut decodes good n staged, appended, replay_fileOf decodes fun ev inside => ?_⟩
    rcases List.mem_append.mp inside with old | new
    · exact kept_good good n ev old
    · obtain ⟨batch, member, inBatch⟩ := List.mem_flatten.mp new
      exact goodBatches batch member ev inBatch

end Wal

theorem bundled_decodes : Crates.bundled.Decodes := fun _ fits => Event.deserialize_serialize fits

namespace Wal

/-- A log of two records, cut within the second. -/
theorem two_records_cut :
    scan .bundled (some ((fileOf .bundled [.resourceDeleted 1, .resourceDeleted 2]).take 60)) =
      .ok ([.resourceDeleted 1], 56, 2) := by
  have good : ∀ ev ∈ [Event.resourceDeleted 1, .resourceDeleted 2], Loggable ev := by
    rintro ev (_ | ⟨_, _ | ⟨_, ⟨⟩⟩⟩) <;> exact ⟨trivial, rfl, by decide⟩
  have survived := (torn_tail_survived bundled_decodes good 60).1
  have cut : kept .bundled [.resourceDeleted 1, .resourceDeleted 2] 60 = [.resourceDeleted 1] := by decide
  rw [cut] at survived
  exact survived

end Wal

end Deltat
