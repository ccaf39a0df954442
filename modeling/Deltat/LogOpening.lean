import Deltat.DecodedRecords
import Deltat.WalClean

/-! # Opening a log

Opening stages a rewrite of an older file and renames it into place, cuts a torn tail off and
heads an empty file. Whatever of this a crash leaves, the file at the path replays to the same
events, and a log that was opened once is left as it is by the next opening.
-/

namespace Deltat

open Lib Lib.Bytes

/-- The decoding that a rewrite relies on: whatever it accepts has values of the machine types,
    and a record no longer than what it was decoded from. -/
def Crates.Canonical (k : Crates) : Prop :=
  ∀ payload ev, k.deserialize payload = some ev → ev.Representable ∧ ev.serialize.length ≤ payload.length

theorem bundled_canonical : Crates.bundled.Canonical := fun _ _ decoded => Event.serialize_of_deserialize decoded

/-- One effect of opening a log on the files. A write takes effect byte by byte. -/
inductive DiskStep where
  | createStaged
  | stage (byte : UInt8)
  | rename
  | create
  | truncate (len : Nat)
  | append (byte : UInt8)

def DiskStep.apply (disk : Disk) : DiskStep → Disk
  | createStaged => { disk with staged := some [] }
  | stage byte => { disk with staged := disk.staged.map (· ++ [byte]) }
  | rename => Wal.swapTempIntoPlace disk
  | create => { disk with file := some (disk.file.getD []) }
  | truncate len => { disk with file := disk.file.map (·.take len) }
  | append byte => { disk with file := disk.file.map (· ++ [byte]) }

/-- The files after some steps. -/
def Disk.after (disk : Disk) (steps : List DiskStep) : Disk := steps.foldl DiskStep.apply disk

namespace Wal

variable {k : Crates} {events : List Event} {validLen version : Nat} {disk : Disk}

/-- The effects of opening a log, in their order. -/
def openSteps (k : Crates) (disk : Disk) : Except IoError (List DiskStep) := do
  let (events, scannedLen, version) ← scan k disk.file
  let migration := if version < formatVersion ∧ scannedLen > 0 then
      .createStaged :: (fileOf k events).map .stage ++ [.rename]
    else []
  let bytes := if version < formatVersion ∧ scannedLen > 0 then fileOf k events else disk.file.getD []
  let validLen := if version < formatVersion ∧ scannedLen > 0 then bytes.length else scannedLen
  let truncation := if bytes.length > validLen then [.truncate validLen] else []
  let heading := if min bytes.length validLen = 0 then (header formatVersion).map .append else []
  return migration ++ .create :: (truncation ++ heading)

/-! ## Runs of steps -/

theorem after_append (disk : Disk) (xs ys : List DiskStep) : disk.after (xs ++ ys) = (disk.after xs).after ys :=
  List.foldl_append

/-- A crash after any of the steps leaves a log of these events. -/
def Survives (k : Crates) (events : List Event) (disk : Disk) (steps : List DiskStep) : Prop :=
  ∀ before, before <+: steps → replay k (disk.after before).file = .ok events

theorem Survives.append {xs ys : List DiskStep} (first : Survives k events disk xs)
    (second : Survives k events (disk.after xs) ys) : Survives k events disk (xs ++ ys) := by
  intro before part
  rcases List.prefix_or_prefix_of_prefix part (List.prefix_append xs ys) with early | ⟨rest, rfl⟩
  · exact first before early
  · rw [after_append]
    exact second rest ((List.prefix_append_right_inj xs).mp part)

theorem Survives.nil (now : replay k disk.file = .ok events) : Survives k events disk [] := by
  intro before part
  rw [List.prefix_nil.mp part]
  exact now

theorem Survives.cons {x : DiskStep} {ys : List DiskStep} (now : replay k disk.file = .ok events)
    (later : Survives k events (DiskStep.apply disk x) ys) : Survives k events disk (x :: ys) := by
  intro before part
  cases before with
  | nil => exact now
  | cons y rest =>
      obtain ⟨rfl, rest'⟩ := List.cons_prefix_cons.mp part
      exact later rest rest'

theorem after_stage (file : Option (List UInt8)) (staged bytes : List UInt8) :
    Disk.after ⟨file, some staged⟩ (bytes.map .stage) = ⟨file, some (staged ++ bytes)⟩ := by
  induction bytes generalizing staged with
  | nil => rw [List.append_nil]; rfl
  | cons b rest ih =>
      rw [List.map_cons, List.append_cons]
      exact ih (staged ++ [b])

theorem after_append_bytes (file bytes : List UInt8) (staged : Option (List UInt8)) :
    Disk.after ⟨some file, staged⟩ (bytes.map .append) = ⟨some (file ++ bytes), staged⟩ := by
  induction bytes generalizing file with
  | nil => rw [List.append_nil]; rfl
  | cons b rest ih =>
      rw [List.map_cons, List.append_cons]
      exact ih (file ++ [b])

/-! ## What the scan accepts -/

/-- Every event that the loop reads can be written and read back. -/
theorem scanFrom_loggable (canonical : k.Canonical) {fileLen fuel reached : Nat} {acc : List Event} {rest : List UInt8}
    (read : scanFrom k fileLen fuel acc validLen rest = .ok (events, reached)) (before : ∀ ev ∈ acc, Loggable ev) :
    ∀ ev ∈ events, Loggable ev := by
  have stays : Except.ok (acc, validLen) = (Except.ok (events, reached) : Except IoError (List Event × Nat)) →
      ∀ ev ∈ events, Loggable ev := by
    intro same
    cases same
    exact before
  induction fuel generalizing acc validLen rest with
  | zero => exact stays read
  | succ fuel ih =>
      rw [scanFrom] at read
      split at read
      · exact stays read
      simp only at read
      split at read
      · split at read
        · exact stays read
        · cases read
      next within =>
      split at read
      · exact stays read
      next payload afterPayload payloadRead =>
      split at read
      · exact stays read
      split at read
      · split at read
        · exact stays read
        · cases read
      split at read
      · next ev decoded =>
          split at read
          · next valid =>
              obtain ⟨representable, smaller⟩ := canonical payload ev decoded
              have length := (readExact_some.mp payloadRead).2
              have good : Loggable ev := ⟨representable, valid, smaller.trans (length ▸ Nat.le_of_not_lt within)⟩
              have all := List.forall_mem_append.mpr ⟨before, List.forall_mem_singleton.mpr good⟩
              exact ih read all fun same => by cases same; exact all
          · split at read
            · exact stays read
            · cases read
      · split at read
        · exact stays read
        · cases read

/-- Where nothing was read past, nothing was read. -/
theorem scanFrom_nothing {fileLen fuel : Nat} {acc : List Event} {rest : List UInt8}
    (read : scanFrom k fileLen fuel acc validLen rest = .ok (events, validLen)) : events = acc := by
  cases fuel with
  | zero =>
      cases read
      rfl
  | succ fuel =>
      rcases scanFrom_cases read with ⟨same, _⟩ | ⟨record, ev, rest', _, reads, further⟩
      · exact same
      · have behind := (scanFrom_valid further).1
        have nonempty := reads.nonempty
        omega

/-- The marks of a header are the header. -/
theorem header_of_readHeader {bytes : List UInt8} {start : Nat} (read : readHeader bytes = .ok (start, version)) :
    (start = 0 ∧ version = legacyFormatVersion) ∨ start = headerBytes ∧ version ≤ formatVersion ∧ header version <+: bytes := by
  unfold readHeader at read
  split at read
  · cases read
    exact .inl ⟨rfl, rfl⟩
  next long =>
  split at read
  · cases read
    exact .inl ⟨rfl, rfl⟩
  next marked =>
  simp only at read
  split at read
  · cases read
  next known =>
  cases read
  refine .inr ⟨rfl, Nat.le_of_not_lt known, ?_⟩
  have field : ((bytes.drop magic.length).take 2).length = 2 := by
    rw [List.length_take, List.length_drop]
    simp only [headerBytes] at long
    omega
  have number := Codec.le_ofLe ((bytes.drop magic.length).take 2)
  rw [field] at number
  have whole : magic ++ (bytes.drop magic.length).take 2 = bytes.take (magic.length + 2) := by
    rw [List.take_add, not_not.mp marked]
  rw [header, number, whole]
  exact List.take_prefix _ _

/-! ## Crashes -/

theorem replay_of_scan {file : Option (List UInt8)} (scanned : scan k file = .ok (events, validLen, version)) :
    replay k file = .ok events := by
  rw [replay, scanned]
  rfl

/-- An empty file that is being headed replays to nothing. -/
theorem heading_survives (decodes : k.Decodes) (staged : Option (List UInt8)) :
    Survives k [] ⟨some [], staged⟩ ((header formatVersion).map .append) := by
  intro before part
  obtain ⟨headed, cut, rfl⟩ := List.prefix_map_iff.mp part
  rw [after_append_bytes, List.nil_append]
  rw [List.prefix_iff_eq_take.mp cut]
  rcases Nat.lt_or_ge headed.length headerBytes with short | enough
  · exact replay_of_scan (scan_header_cut short)
  · rw [List.take_of_length_le (by rw [length_header]; exact enough)]
    exact replay_fileOf decodes (List.forall_mem_nil _)

/-- A rewrite that is being staged leaves the log, and one that is renamed replaces it. -/
theorem migration_survives (decodes : k.Decodes) (good : ∀ ev ∈ events, Loggable ev) (replays : replay k disk.file = .ok events) :
    Survives k events disk (.createStaged :: (fileOf k events).map .stage ++ [.rename]) ∧
      disk.after (.createStaged :: (fileOf k events).map .stage ++ [.rename]) = ⟨some (fileOf k events), none⟩ := by
  have created : DiskStep.apply disk .createStaged = ⟨disk.file, some []⟩ := rfl
  have written : disk.after (.createStaged :: (fileOf k events).map .stage) = ⟨disk.file, some (fileOf k events)⟩ := by
    have staging := after_stage disk.file [] (fileOf k events)
    rw [List.nil_append] at staging
    exact staging
  have renamed : disk.after (.createStaged :: (fileOf k events).map .stage ++ [.rename]) = ⟨some (fileOf k events), none⟩ := by
    rw [after_append, written]
    rfl
  refine ⟨Survives.append ?_ ?_, renamed⟩
  · refine Survives.cons replays ?_
    intro before part
    obtain ⟨bytes, _, rfl⟩ := List.prefix_map_iff.mp part
    rw [created, after_stage]
    exact replays
  · rw [written]
    exact .cons replays (.nil (replay_fileOf decodes good))

/-- A clean log is opened as it is. -/
theorem Clean.open_same {bytes : List UInt8} (clean : Clean k bytes events) (staged : Option (List UInt8)) :
    «open» k ⟨some bytes, staged⟩ = .ok ⟨⟨some bytes, staged⟩, [], 0, false⟩ := by
  have enough := headerBytes_le clean.header
  have nonempty : bytes.length ≠ 0 := by
    simp only [headerBytes] at enough
    omega
  unfold «open»
  rw [clean.scanned]
  simp only [bind, Except.bind, pure, Except.pure, Option.getD_some, Nat.lt_irrefl, gt_iff_lt, false_and, ↓reduceIte, nonempty]

/-- What opening does to files: the steps lead to a clean log of the same events, and a crash
    after any of them leaves a log of these events. -/
def Opens (k : Crates) (disk : Disk) (events : List Event) : Prop :=
  ∃ wal steps bytes, «open» k disk = .ok wal ∧ openSteps k disk = .ok steps ∧ disk.after steps = wal.disk ∧
    wal.disk.file = some bytes ∧ Clean k bytes events ∧ Survives k events disk steps

theorem opens_missing (decodes : k.Decodes) (staged : Option (List UInt8)) : Opens k ⟨none, staged⟩ [] := by
  have clean : Clean k (header formatVersion) [] := clean_fileOf decodes (List.forall_mem_nil _)
  have headed := after_append_bytes [] (header formatVersion) staged
  refine ⟨⟨⟨some (header formatVersion), staged⟩, [], 0, false⟩, .create :: (header formatVersion).map .append, header formatVersion,
    rfl, rfl, headed, rfl, clean, ?_⟩
  exact .cons rfl (heading_survives decodes staged)

/-- A file of the current format loses a torn tail and nothing else. -/
theorem opens_current {bytes : List UInt8} (headed : header formatVersion <+: bytes) (staged : Option (List UInt8))
    (scanned : scan k (some bytes) = .ok (events, validLen, version)) : Opens k ⟨some bytes, staged⟩ events := by
  obtain ⟨rfl, behind, within, clean⟩ := clean_take headed scanned
  have enough : validLen ≠ 0 := by
    simp only [headerBytes] at behind
    omega
  have cut : (bytes.take validLen).length ≠ 0 := by
    rw [List.length_take]
    omega
  have whole : min bytes.length validLen ≠ 0 := by omega
  have replays := replay_of_scan scanned
  refine ⟨⟨⟨some (bytes.take validLen), staged⟩, [], 0, false⟩, .create :: if bytes.length > validLen then [.truncate validLen] else [],
    bytes.take validLen, ?_, ?_, ?_, rfl, clean, ?_⟩
  · unfold «open»
    rw [scanned]
    simp only [bind, Except.bind, pure, Except.pure, Option.getD_some, Nat.lt_irrefl, false_and, ↓reduceIte]
    rw [truncate_eq, if_neg cut]
  · unfold openSteps
    rw [scanned]
    simp only [bind, Except.bind, pure, Except.pure, Option.getD_some, Nat.lt_irrefl, false_and, ↓reduceIte, whole,
      List.nil_append, List.append_nil]
  · split
    · rfl
    · next short =>
        rw [List.take_of_length_le (Nat.le_of_not_lt short)]
        rfl
  · refine .cons replays ?_
    split
    · exact .cons replays (.nil (replay_of_scan clean.scanned))
    · exact .nil replays

/-- A file in which nothing is valid is emptied and headed. -/
theorem opens_torn (decodes : k.Decodes) {bytes : List UInt8} (staged : Option (List UInt8))
    (scanned : scan k (some bytes) = .ok ([], 0, version)) : Opens k ⟨some bytes, staged⟩ [] := by
  have clean : Clean k (header formatVersion) [] := clean_fileOf decodes (List.forall_mem_nil _)
  have replays := replay_of_scan scanned
  have emptied : Disk.after ⟨some bytes, staged⟩ (.create :: if bytes.length > 0 then [.truncate 0] else []) = ⟨some [], staged⟩ := by
    split
    · rfl
    · next empty =>
        rw [List.eq_nil_of_length_eq_zero (Nat.eq_zero_of_not_pos empty)]
        rfl
  refine ⟨⟨⟨some (header formatVersion), staged⟩, [], 0, false⟩,
    .create :: ((if bytes.length > 0 then [.truncate 0] else []) ++ (header formatVersion).map .append), header formatVersion,
    ?_, ?_, ?_, rfl, clean, ?_⟩
  · unfold «open»
    rw [scanned]
    simp only [bind, Except.bind, pure, Except.pure, Option.getD_some, Nat.lt_irrefl, gt_iff_lt, and_false, ↓reduceIte]
    rw [truncate_eq]
    rfl
  · unfold openSteps
    rw [scanned]
    simp only [bind, Except.bind, pure, Except.pure, Option.getD_some, Nat.lt_irrefl, gt_iff_lt, and_false, ↓reduceIte,
      Nat.min_zero, List.nil_append]
  · rw [← List.cons_append, after_append, emptied, after_append_bytes]
    rfl
  · rw [← List.cons_append]
    refine Survives.append (.cons replays ?_) ?_
    · split
      · exact .cons replays (.nil (replay_of_scan (scan_header_cut (by decide : 0 < headerBytes))))
      · exact .nil replays
    · rw [emptied]
      exact heading_survives decodes staged

/-- An older file is rewritten. -/
theorem opens_older (decodes : k.Decodes) (file : Option (List UInt8)) (staged : Option (List UInt8)) (older : version < formatVersion)
    (some' : 0 < validLen) (good : ∀ ev ∈ events, Loggable ev) (scanned : scan k file = .ok (events, validLen, version)) :
    Opens k ⟨file, staged⟩ events := by
  have migrates : version < formatVersion ∧ validLen > 0 := ⟨older, some'⟩
  have clean := clean_fileOf decodes good
  have enough := headerBytes_le clean.header
  have nonempty : (fileOf k events).length ≠ 0 := by
    simp only [headerBytes] at enough
    omega
  have replays : replay k (⟨file, staged⟩ : Disk).file = .ok events := replay_of_scan scanned
  obtain ⟨survives, renamed⟩ := migration_survives decodes good replays
  refine ⟨⟨⟨some (fileOf k events), none⟩, [], 0, false⟩,
    (.createStaged :: (fileOf k events).map .stage ++ [.rename]) ++ [.create], fileOf k events, ?_, ?_, ?_, rfl, clean, ?_⟩
  · unfold «open»
    rw [scanned]
    simp only [bind, Except.bind, pure, Except.pure, migrates, and_self, ↓reduceIte, swapTempIntoPlace, writeCompactFile,
      Option.getD_some, gt_iff_lt, Nat.lt_irrefl, nonempty]
  · unfold openSteps
    rw [scanned]
    simp only [bind, Except.bind, pure, Except.pure, migrates, and_self, ↓reduceIte, gt_iff_lt, Nat.lt_irrefl, Nat.min_self,
      nonempty, List.append_nil]
  · rw [after_append, renamed]
    rfl
  · refine survives.append ?_
    rw [renamed]
    exact .cons (replay_of_scan clean.scanned) (.nil (replay_of_scan clean.scanned))

/-- What the scan accepts, opening keeps. -/
theorem opens_accepted (decodes : k.Decodes) (canonical : k.Canonical)
    (scanned : scan k disk.file = .ok (events, validLen, version)) : Opens k disk events := by
  obtain ⟨file, staged⟩ := disk
  cases file with
  | none =>
      cases scanned
      exact opens_missing decodes staged
  | some bytes =>
      obtain ⟨⟨start, version'⟩, read, rest⟩ := Outcome.bind_ok.mp scanned
      obtain ⟨⟨events', reached⟩, loop, same⟩ := Outcome.bind_ok.mp rest
      cases same
      have good := scanFrom_loggable canonical loop (List.forall_mem_nil _)
      rcases header_of_readHeader read with ⟨rfl, rfl⟩ | ⟨rfl, known, headed⟩
      · have older : legacyFormatVersion < formatVersion := by decide
        rcases Nat.eq_zero_or_pos validLen with rfl | some'
        · obtain rfl := scanFrom_nothing loop
          exact opens_torn decodes staged scanned
        · exact opens_older decodes _ staged older some' good scanned
      · rcases Nat.lt_or_ge version formatVersion with older | current
        · have behind := (scanFrom_valid loop).1
          exact opens_older decodes _ staged older (Nat.lt_of_lt_of_le (by decide) behind) good scanned
        · obtain rfl := Nat.le_antisymm known current
          exact opens_current headed staged scanned

/-- Opening a log that the scan accepts preserves it. The file then replays to the same events
    under a current header, a second opening leaves its bytes, and a crash after any step of the
    opening leaves a file at the path that replays to the same events. -/
theorem open_preserves (decodes : k.Decodes) (canonical : k.Canonical)
    (scanned : scan k disk.file = .ok (events, validLen, version)) :
    ∃ wal bytes, «open» k disk = .ok wal ∧ wal.disk.file = some bytes ∧ header formatVersion <+: bytes ∧
      replay k (some bytes) = .ok events ∧ (∃ again, «open» k wal.disk = .ok again ∧ again.disk = wal.disk) ∧
      ∃ steps, openSteps k disk = .ok steps ∧ disk.after steps = wal.disk ∧
        ∀ before, before <+: steps → replay k (disk.after before).file = .ok events := by
  obtain ⟨wal, steps, bytes, opened, listed, reached, present, clean, survives⟩ := opens_accepted decodes canonical scanned
  obtain ⟨⟨file, staged⟩, buffer, appends, poisoned⟩ := wal
  obtain rfl : file = some bytes := present
  exact ⟨_, bytes, opened, rfl, clean.header, replay_of_scan clean.scanned, ⟨_, clean.open_same staged, rfl⟩, steps, listed, reached,
    survives⟩

/-- A file from before there was a header: one record, and four bytes of the next. -/
def legacyLog : List UInt8 := encodeEvent .bundled (.resourceDeleted 1) ++ [42, 0, 0, 0]

theorem legacyLog_scanned : scan .bundled (some legacyLog) = .ok ([.resourceDeleted 1], 46, legacyFormatVersion) := by
  decide +kernel

theorem legacyLog_opened : ∃ wal bytes, «open» .bundled ⟨some legacyLog, none⟩ = .ok wal ∧ wal.disk.file = some bytes ∧
    header formatVersion <+: bytes ∧ replay .bundled (some bytes) = .ok [.resourceDeleted 1] := by
  have scanned : scan .bundled (⟨some legacyLog, none⟩ : Disk).file = .ok ([.resourceDeleted 1], 46, legacyFormatVersion) :=
    legacyLog_scanned
  obtain ⟨wal, bytes, opened, present, headed, replays, _⟩ := open_preserves bundled_decodes bundled_canonical scanned
  exact ⟨wal, bytes, opened, present, headed, replays⟩

end Wal

end Deltat
