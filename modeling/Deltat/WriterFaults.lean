import Deltat.WalClean
import Deltat.Writer

/-! # The log after a failed flush

A failed flush leaves some bytes of its batch behind the acknowledged records. Recovery cuts
the file at a record boundary, so what was acknowledged is all that stays exactly when not
even the first record of the batch got there.
-/

namespace Deltat

open Lib Lib.Bytes

/-- What the types of an event ensure, and that its length fits its prefix. -/
structure Event.Encodable (ev : Event) : Prop where
  representable : ev.Representable
  spansValid : ev.spansValid = true
  counted : ev.serialize.length < 2 ^ 32

namespace Wal

variable {k : Crates}

/-! ## Parts of a record at the end of a file -/

section Loop

variable {ev : Event} {acc : List Event} {fileLen fuel validLen : Nat} {tail : List UInt8}

theorem lengthPrefix_counted (counted : ev.serialize.length < 2 ^ 32) :
    ofLe (le 4 ev.serialize.length) = ev.serialize.length := by
  apply ofLe_le_of_lt
  exact counted.trans_le (by norm_num)

/-- A part of a record ends the log, also of one that is too long, as long as no more bytes
    are left than one record may have. -/
theorem scanFrom_unfinished (counted : ev.serialize.length < 2 ^ 32) (cut : tail <+: encodeEvent k ev)
    (proper : tail.length < (encodeEvent k ev).length)
    (within : fileLen - validLen ≤ recordFramingBytes + maxWalRecordBytes) :
    scanFrom k fileLen (fuel + 1) acc validLen tail = .ok (acc, validLen) := by
  rcases Nat.lt_or_ge maxWalRecordBytes ev.serialize.length with long | short
  · rw [scanFrom]
    rcases readExact_cut cut (length_le 4 _) with ended | ⟨tail, rfl, _, read⟩
    · rw [ended]
    · rw [read]
      simp only [lengthPrefix_counted counted, gt_iff_lt, long, ↓reduceIte, within]
  · exact scanFrom_torn short cut proper

/-- More bytes than one record may have are an error behind the length of one that is too long. -/
theorem scanFrom_implausible (long : maxWalRecordBytes < ev.serialize.length)
    (counted : ev.serialize.length < 2 ^ 32) {rest : List UInt8} (cut : tail <+: encodeEvent k ev ++ rest)
    (more : recordFramingBytes + maxWalRecordBytes < tail.length) (size : fileLen = validLen + tail.length) :
    scanFrom k fileLen (fuel + 1) acc validLen tail =
      .error (midLogCorruption validLen "implausible record length") := by
  have beyond : ¬ fileLen - validLen ≤ recordFramingBytes + maxWalRecordBytes := by omega
  rw [encodeEvent, List.append_assoc] at cut
  rw [scanFrom]
  rcases readExact_cut cut (length_le 4 _) with ended | ⟨tail, rfl, _, read⟩
  · rw [readExact_none, Nat.lt_iff_add_one_le] at ended
    simp only [recordFramingBytes] at more
    omega
  · rw [read]
    simp only [lengthPrefix_counted counted, gt_iff_lt, long, ↓reduceIte, beyond]

/-- The loop only adds to the valid records, and what it counts as valid lies in the file. -/
theorem scanFrom_grows {events : List Event} {reached : Nat} (read : scanFrom k fileLen fuel acc validLen tail =
    .ok (events, reached)) : acc <+: events ∧ validLen ≤ reached := by
  induction fuel generalizing acc validLen tail with
  | zero =>
      cases read
      exact ⟨List.prefix_rfl, Nat.le_refl _⟩
  | succ fuel ih =>
      rcases scanFrom_cases read with ⟨rfl, rfl⟩ | ⟨_, _, _, _, _, further⟩
      · exact ⟨List.prefix_rfl, Nat.le_refl _⟩
      · obtain ⟨kept, behind⟩ := ih further
        exact ⟨(List.prefix_append _ _).trans kept, (Nat.le_add_right _ _).trans behind⟩

end Loop

/-! ## Files that begin with whole records -/

section Behind

variable {events : List Event} {tail : List UInt8}

/-- The scan of a file goes on behind the intact records it begins with. -/
theorem scan_behind (decodes : k.Decodes) (good : ∀ ev ∈ events, Loggable ev) (tail : List UInt8) :
    ∃ fuel, scan k (some (fileOf k events ++ tail)) =
      (scanFrom k ((fileOf k events).length + tail.length) (fuel + 1) events (fileOf k events).length tail).map
        fun read => (read.1, read.2, formatVersion) := by
  obtain ⟨fuel, _, scanned⟩ := (clean_fileOf decodes good).scan_append tail
  exact ⟨fuel, scanned⟩

/-- What such a file replays begins with its records. -/
theorem replay_behind (decodes : k.Decodes) (good : ∀ ev ∈ events, Loggable ev) {read : List Event}
    (replayed : replay k (some (fileOf k events ++ tail)) = .ok read) : events <+: read := by
  obtain ⟨fuel, scanned⟩ := scan_behind decodes good tail
  rw [replay, scanned] at replayed
  cases step : scanFrom k ((fileOf k events).length + tail.length) (fuel + 1) events (fileOf k events).length tail with
  | error error =>
      rw [step] at replayed
      cases replayed
  | ok both =>
      rw [step] at replayed
      cases replayed
      exact (scanFrom_grows step).1

/-- Recovery leaves the intact records that the file begins with. -/
theorem recover_behind (decodes : k.Decodes) (good : ∀ ev ∈ events, Loggable ev) {wal : Wal}
    (file : wal.disk.file = some (fileOf k events ++ tail)) :
    ∃ tail', (recover k wal).disk.file = some (fileOf k events ++ tail') := by
  obtain ⟨fuel, scanned⟩ := scan_behind decodes good tail
  unfold recover «open»
  rw [file, scanned]
  cases step : scanFrom k ((fileOf k events).length + tail.length) (fuel + 1) events (fileOf k events).length tail with
  | error error => exact ⟨tail, file⟩
  | ok both =>
      have further := (scanFrom_grows step).2
      have nonempty : (fileOf k events ++ tail.take (both.2 - (fileOf k events).length)).length ≠ 0 := by
        rw [fileOf, List.length_append, List.length_append, length_header, headerBytes]
        omega
      simp only [Except.map, bind, Except.bind, pure, Except.pure, Nat.lt_irrefl, false_and, ↓reduceIte, file,
        Option.getD_some]
      rw [truncate_eq, List.take_append, List.take_of_length_le further, if_neg nonempty]
      exact ⟨_, rfl⟩

/-- Where the scan ends behind the intact records, recovery cuts the file back to them. -/
theorem recover_cut {wal : Wal} (file : wal.disk.file = some (fileOf k events ++ tail))
    (scanned : scan k (some (fileOf k events ++ tail)) = .ok (events, (fileOf k events).length, formatVersion)) :
    (recover k wal).disk.file = some (fileOf k events) := by
  have nonempty : (fileOf k events).length ≠ 0 := by
    rw [fileOf, List.length_append, length_header, headerBytes]
    omega
  unfold recover «open»
  rw [file, scanned]
  simp only [bind, Except.bind, pure, Except.pure, Nat.lt_irrefl, false_and, ↓reduceIte, file, Option.getD_some]
  rw [truncate_eq, List.take_left, if_neg nonempty]

/-- A file that cannot be scanned stays as it is, and cannot be replayed. -/
theorem replay_recover_error {wal : Wal} {error : IoError} (scanned : scan k wal.disk.file = .error error) :
    replay k (recover k wal).disk.file = .error error := by
  unfold recover «open»
  rw [scanned]
  change replay k wal.disk.file = _
  rw [replay, scanned]
  rfl

/-- Whole records in front of one that is too long, with more behind it than one may have. -/
theorem scan_implausible (decodes : k.Decodes) (good : ∀ ev ∈ events, Loggable ev) {ev : Event}
    (long : maxWalRecordBytes < ev.serialize.length) (counted : ev.serialize.length < 2 ^ 32) {rest : List UInt8}
    (cut : tail <+: encodeEvent k ev ++ rest) (more : recordFramingBytes + maxWalRecordBytes < tail.length) :
    ∃ error, scan k (some (fileOf k events ++ tail)) = .error error := by
  obtain ⟨fuel, scanned⟩ := scan_behind decodes good tail
  rw [scanned, scanFrom_implausible long counted cut more rfl]
  exact ⟨_, rfl⟩

end Behind

/-! ## Recovery behind a part of a batch -/

section Recovery

variable {base batch : List Event} {reached : Nat} {wal : Wal}

theorem fileOf_snoc (ev : Event) (tail : List UInt8) :
    fileOf k base ++ (encodeEvent k ev ++ tail) = fileOf k (base ++ [ev]) ++ tail := by
  simp only [fileOf, List.flatMap_append, List.flatMap_singleton, List.append_assoc]

/-- A record that is too long to read back stops replay, whatever follows it. -/
theorem short_of_recovered (decodes : k.Decodes) (proper : ∀ ev ∈ base, ev.Encodable) {tail : List UInt8}
    (file : wal.disk.file = some (fileOf k base ++ tail)) {events : List Event}
    (replayed : replay k (recover k wal).disk.file = .ok events) :
    ∀ ev ∈ base, ev.serialize.length ≤ maxWalRecordBytes := by
  cases first : base.find? (fun ev => decide (maxWalRecordBytes < ev.serialize.length)) with
  | none => simpa using List.find?_eq_none.mp first
  | some ev =>
      obtain ⟨long, before, after, rfl, short⟩ := List.find?_eq_some_iff_append.mp first
      have long : maxWalRecordBytes < ev.serialize.length := of_decide_eq_true long
      have goodBefore : ∀ b ∈ before, Loggable b := fun b inside =>
        have fits := proper b (List.mem_append_left _ inside)
        ⟨fits.representable, fits.spansValid, by simpa using short b inside⟩
      have split : fileOf k (before ++ ev :: after) ++ tail =
          fileOf k before ++ (encodeEvent k ev ++ (after.flatMap (encodeEvent k) ++ tail)) := by
        simp only [fileOf, List.flatMap_append, List.flatMap_cons, List.append_assoc]
      obtain ⟨error, failed⟩ := scan_implausible decodes goodBefore long
        (proper ev (List.mem_append_right _ List.mem_cons_self)).counted
        (List.prefix_rfl (l := encodeEvent k ev ++ (after.flatMap (encodeEvent k) ++ tail))) (by
          rw [List.length_append, length_encodeEvent]
          omega)
      rw [← split, ← file] at failed
      rw [replay_recover_error failed] at replayed
      cases replayed

/-- Recovery leaves exactly the records in front of a failed batch when each of these can be
    read back and so little of the batch reached the file that it is a part of one record. -/
theorem recovered_exact_iff (decodes : k.Decodes) (proper : ∀ ev ∈ base ++ batch, ev.Encodable)
    (file : wal.disk.file = some (fileOf k base ++ (batch.flatMap (encodeEvent k)).take reached)) :
    replay k (recover k wal).disk.file = .ok base ↔
      (∀ ev ∈ base, ev.serialize.length ≤ maxWalRecordBytes) ∧ ∀ first ∈ batch.head?,
        reached < (encodeEvent k first).length ∧ reached ≤ recordFramingBytes + maxWalRecordBytes := by
  have properBase : ∀ ev ∈ base, ev.Encodable := fun ev inside => proper ev (List.mem_append_left _ inside)
  have loggable : (∀ ev ∈ base, ev.serialize.length ≤ maxWalRecordBytes) → ∀ ev ∈ base, Loggable ev :=
    fun short ev inside => ⟨(properBase ev inside).representable, (properBase ev inside).spansValid, short ev inside⟩
  constructor
  · intro exactly
    have short := short_of_recovered decodes properBase file exactly
    refine ⟨short, ?_⟩
    cases batch with
    | nil => exact fun first inside => by cases inside
    | cons first rest =>
        rintro _ ⟨⟩
        have fits := proper first (List.mem_append_right _ List.mem_cons_self)
        have length := length_encodeEvent (k := k) first
        rw [List.flatMap_cons] at file
        rcases Nat.lt_or_ge maxWalRecordBytes first.serialize.length with long | firstShort
        -- More of a record that is too long than one may have cannot be recovered from.
        · by_contra tooMuch
          have more : recordFramingBytes + maxWalRecordBytes <
              ((encodeEvent k first ++ rest.flatMap (encodeEvent k)).take reached).length := by
            rw [List.length_take, List.length_append]
            omega
          obtain ⟨error, failed⟩ := scan_implausible decodes (loggable short) long fits.counted
            (List.take_prefix reached _) more
          rw [← file] at failed
          rw [replay_recover_error failed] at exactly
          cases exactly
        -- A whole first record comes back.
        · rcases Nat.lt_or_ge reached (encodeEvent k first).length with part | whole
          · exact ⟨part, by omega⟩
          · have good : ∀ ev ∈ base ++ [first], Loggable ev := fun ev inside =>
              (List.mem_append.mp inside).elim (loggable short ev) fun new =>
                List.mem_singleton.mp new ▸ ⟨fits.representable, fits.spansValid, firstShort⟩
            rw [List.take_append, List.take_of_length_le whole, fileOf_snoc] at file
            obtain ⟨tail, recovered⟩ := recover_behind decodes good file
            rw [recovered] at exactly
            have more := (replay_behind decodes good exactly).length_le
            rw [List.length_append, List.length_singleton] at more
            omega
  · rintro ⟨short, part⟩
    have good := loggable short
    obtain ⟨fuel, scanned⟩ := scan_behind decodes good ((batch.flatMap (encodeEvent k)).take reached)
    have ended : scanFrom k ((fileOf k base).length + ((batch.flatMap (encodeEvent k)).take reached).length) (fuel + 1)
        base (fileOf k base).length ((batch.flatMap (encodeEvent k)).take reached) =
          .ok (base, (fileOf k base).length) := by
      cases batch with
      | nil => rw [List.flatMap_nil, List.take_nil, scanFrom]; rfl
      | cons first rest =>
          obtain ⟨proper', within⟩ := part first rfl
          rw [List.flatMap_cons, List.take_append_of_le_length (Nat.le_of_lt proper')]
          have length : ((encodeEvent k first).take reached).length = reached := by
            rw [List.length_take]
            omega
          exact scanFrom_unfinished (proper first (List.mem_append_right _ List.mem_cons_self)).counted
            (List.take_prefix reached _) (by omega) (by omega)
    rw [ended] at scanned
    rw [recover_cut file scanned, replay_fileOf decodes good]

end Recovery

end Wal

namespace Writer

variable {k : Crates} {w : Writer} {stored : List Event}

/-- A writer at rest on a log of these events, with its handle on the log. -/
structure AtRest (k : Crates) (w : Writer) (stored : List Event) : Prop where
  file : w.wal.disk.file = some (Wal.fileOf k stored)
  buffer : w.wal.buffer = []
  clean : w.wal.poisoned = false
  linked : w.unlinked = none
  running : w.failed = false

theorem commitBatches_ok {events : List Event} {flush : Flush} {w' : Writer}
    (done : w.commitBatch k flush events = (.ok (), w')) (rest : List (List Event × Flush)) :
    commitBatches k ((events, flush) :: rest) w = (events ++ (commitBatches k rest w').1, (commitBatches k rest w').2) := by
  rw [commitBatches, done]

theorem commitBatches_error {events : List Event} {flush : Flush} {error : IoError} {w' : Writer}
    (done : w.commitBatch k flush events = (.error error, w')) (rest : List (List Event × Flush)) :
    commitBatches k ((events, flush) :: rest) w = commitBatches k rest w' := by
  rw [commitBatches, done]

/-- Once the tenant has stopped nothing is acknowledged any more. -/
theorem commitBatches_stopped (failed : w.failed = true) (writes : List (List Event × Flush)) :
    commitBatches k writes w = ([], w) := by
  induction writes with
  | nil => rfl
  | cons batch rest ih =>
      have refused : w.commitBatch k batch.2 batch.1 = (.error stopped, w) := by
        simp only [commitBatch, write, failed, ↓reduceIte]
      rw [commitBatches_error refused, ih]

theorem AtRest.throughHandle (rest : AtRest k w stored) : w.throughHandle = w.wal := by
  rw [Writer.throughHandle, rest.linked]

theorem AtRest.withHandle (rest : AtRest k w stored) (wal : Wal) : w.withHandle wal = { w with wal } := by
  rw [Writer.withHandle, rest.linked]

/-- What a batch has put into the buffer before its flush. -/
theorem AtRest.buffered (rest : AtRest k w stored) (events : List Event) :
    events.foldlM (fun wal ev => Wal.appendBuffered k ev wal) w.throughHandle =
      .ok { w.wal with
        buffer := events.flatMap (Wal.encodeEvent k)
        appendsSinceCompact := w.wal.appendsSinceCompact + events.length } := by
  rw [rest.throughHandle, Wal.appendBuffered_all rest.clean, rest.buffer, List.nil_append]

theorem AtRest.synced (rest : AtRest k w stored) (events : List Event) :
    ∃ w', w.commitBatch k .synced events = (.ok (), w') ∧ AtRest k w' (stored ++ events) := by
  have extended : Wal.fileOf k stored ++ events.flatMap (Wal.encodeEvent k) = Wal.fileOf k (stored ++ events) := by
    simp only [Wal.fileOf, List.flatMap_append, List.append_assoc]
  have written : w.write k .synced events = (.ok (), { w with wal := { w.wal with
      disk := { w.wal.disk with file := some (Wal.fileOf k (stored ++ events)) }
      buffer := []
      appendsSinceCompact := w.wal.appendsSinceCompact + events.length } }) := by
    rw [write, if_neg (by simp [rest.running]), Wal.appendAndFlush, rest.buffered]
    simp only [Wal.flushSync, rest.clean, Bool.false_eq_true, ↓reduceIte, rest.file, Option.getD_some, extended,
      rest.withHandle]
  rw [commitBatch, written]
  exact ⟨_, rfl, rfl, rfl, rest.clean, rest.linked, rest.running⟩

/-- The file that recovery starts from after a failed flush. -/
theorem AtRest.failed (rest : AtRest k w stored) (reached left : Nat) (events : List Event) :
    ∃ error w' torn, w.commitBatch k (.failed reached left) events = (.error error, w') ∧ w'.failed = true ∧
      w'.wal = Wal.recover k torn ∧ torn.disk.file =
        some (Wal.fileOf k stored ++ (events.flatMap (Wal.encodeEvent k)).take reached) := by
  have written : ∃ torn, w.write k (.failed reached left) events =
      (.error (.other "flush failed"), ({ w with wal := torn } : Writer).stop k) ∧ torn.disk.file =
        some (Wal.fileOf k stored ++ (events.flatMap (Wal.encodeEvent k)).take reached) := by
    rw [write, if_neg (by simp [rest.running]), Wal.appendAndFlush, rest.buffered]
    simp only [rest.withHandle]
    refine ⟨_, rfl, ?_⟩
    simp only [Wal.flushPart, rest.file, Option.getD_some]
  obtain ⟨torn, written, file⟩ := written
  rw [commitBatch, written]
  exact ⟨_, _, torn, rfl, rfl, rfl, file⟩

/-- Batches whose flushes all succeed are acknowledged and stored. -/
theorem AtRest.allSynced (rest : AtRest k w stored) {writes : List (List Event × Flush)}
    (synced : ∀ write ∈ writes, write.2 = .synced) (later : List (List Event × Flush)) :
    ∃ w', AtRest k w' (stored ++ writes.flatMap Prod.fst) ∧ commitBatches k (writes ++ later) w =
      (writes.flatMap Prod.fst ++ (commitBatches k later w').1, (commitBatches k later w').2) := by
  induction writes generalizing w stored with
  | nil => exact ⟨w, by simpa using rest, by simp⟩
  | cons batch others ih =>
      obtain ⟨events, flush⟩ := batch
      obtain rfl : flush = .synced := synced _ List.mem_cons_self
      obtain ⟨w₁, done, rest₁⟩ := rest.synced events
      obtain ⟨w₂, rest₂, run⟩ := ih rest₁ fun write inside => synced write (List.mem_cons_of_mem _ inside)
      refine ⟨w₂, ?_, ?_⟩
      · rwa [List.flatMap_cons, ← List.append_assoc]
      · rw [List.cons_append, commitBatches_ok done, run, List.flatMap_cons, List.append_assoc]

/-- After a sequence of batches the log replays exactly what was in it and what was acknowledged. -/
def HoldsAcknowledged (k : Crates) (stored : List Event) (writes : List (List Event × Flush)) (w : Writer) : Prop :=
  Wal.replay k (commitBatches k writes w).2.wal.disk.file = .ok (stored ++ (commitBatches k writes w).1)

/-- After the first flush that fails, the log holds exactly what was acknowledged if and only
    if every acknowledged record can be read back and what reached the file of the failed
    batch is a part of its first record, no longer than a record may be. -/
theorem holdsAcknowledged_iff (decodes : k.Decodes) (rest : AtRest k w stored) {before after : List (List Event × Flush)}
    {events : List Event} {reached left : Nat} (synced : ∀ write ∈ before, write.2 = .synced)
    (proper : ∀ ev ∈ stored ++ before.flatMap Prod.fst ++ events, ev.Encodable) :
    HoldsAcknowledged k stored (before ++ (events, .failed reached left) :: after) w ↔
      (∀ ev ∈ stored ++ before.flatMap Prod.fst, ev.serialize.length ≤ Wal.maxWalRecordBytes) ∧
        ∀ first ∈ events.head?, reached < (Wal.encodeEvent k first).length ∧
          reached ≤ Wal.recordFramingBytes + Wal.maxWalRecordBytes := by
  obtain ⟨w₁, rest₁, run⟩ := rest.allSynced synced ((events, .failed reached left) :: after)
  obtain ⟨error, w₂, torn, failed, stopped, recovered, file⟩ := rest₁.failed reached left events
  rw [commitBatches_error failed, commitBatches_stopped stopped, List.append_nil] at run
  unfold HoldsAcknowledged
  rw [run, recovered]
  exact Wal.recovered_exact_iff decodes proper file

/-- A writer on a new log. -/
def fresh : Writer := ⟨⟨⟨some (Wal.fileOf .bundled []), none⟩, [], 0, false⟩, none, none, false⟩

theorem fresh_atRest : AtRest .bundled fresh [] := ⟨rfl, rfl, rfl, rfl, rfl⟩

/-- A flush of one record that fails in its fsync, all bytes being in the file. -/
def unsynced : List (List Event × Flush) := [([.resourceCreated 1 none none 1 none], .failed 1000 0)]

theorem created_encodable : (Event.resourceCreated 1 none none 1 none).Encodable := by
  refine ⟨⟨fun s named => ?_, fun ms set => ?_⟩, rfl, by decide⟩
  · cases named
  · cases set

theorem unsynced_proper : ∀ ev ∈ [] ++ ([] : List (List Event × Flush)).flatMap Prod.fst ++
    [Event.resourceCreated 1 none none 1 none], ev.Encodable := by
  rintro ev (_ | ⟨_, ⟨⟩⟩)
  exact created_encodable

theorem unsynced_iff :
    HoldsAcknowledged .bundled [] ([] ++ unsynced) fresh ↔
      (∀ ev ∈ [] ++ ([] : List (List Event × Flush)).flatMap Prod.fst, ev.serialize.length ≤ Wal.maxWalRecordBytes) ∧
        ∀ first ∈ [Event.resourceCreated 1 none none 1 none].head?, 1000 < (Wal.encodeEvent .bundled first).length ∧
          1000 ≤ Wal.recordFramingBytes + Wal.maxWalRecordBytes :=
  holdsAcknowledged_iff bundled_decodes fresh_atRest (fun _ inside => (List.not_mem_nil inside).elim) unsynced_proper

/-- The record whose caller was told that it failed comes back. -/
theorem unsynced_comes_back : AtRest .bundled fresh [] ∧ (commitBatches .bundled unsynced fresh).1 = [] ∧
    ¬ HoldsAcknowledged .bundled [] unsynced fresh := by
  refine ⟨fresh_atRest, rfl, fun holds => ?_⟩
  have back : Wal.replay .bundled (commitBatches .bundled unsynced fresh).2.wal.disk.file = .ok [.resourceCreated 1 none none 1 none] := by
    decide +kernel
  cases back.symm.trans holds

end Writer

end Deltat
