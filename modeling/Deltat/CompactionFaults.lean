import Deltat.WriterFaults

/-! # The log after a failed compaction

A compaction that fails in front of the rename leaves the log as it was. One that fails behind
it leaves the new file at the path and the handle on the old one, where no replay will look.
-/

namespace Deltat

open Compaction

/-- Whether the failure comes behind the rename. -/
def CompactFault.renamed : CompactFault → Bool
  | .staging _ | .swapping => false
  | .syncing | .reopening => true

namespace Writer

variable {k : Crates} {w : Writer} {stored snapshot : List Event} {later : List (List Event)}

/-- A writer whose handle is on a file that the path has lost. -/
structure OffPath (w : Writer) (path : Option (List UInt8)) : Prop where
  file : w.wal.disk.file = path
  clean : w.wal.poisoned = false
  unlinked : w.unlinked.isSome
  running : w.failed = false

/-- What is acknowledged through such a handle does not reach the path. -/
theorem OffPath.synced {path : Option (List UInt8)} (off : OffPath w path) (events : List Event) :
    ∃ w', w.commitBatch k .synced events = (.ok (), w') ∧ OffPath w' path := by
  obtain ⟨bytes, handle⟩ := Option.isSome_iff_exists.mp off.unlinked
  have clean : w.throughHandle.poisoned = false := by
    simp only [throughHandle, handle, off.clean]
  rw [commitBatch, write, if_neg (by simp [off.running]), Wal.appendAndFlush, Wal.appendBuffered_all clean]
  simp only [Wal.flushSync, clean, Bool.false_eq_true, ↓reduceIte, withHandle, handle]
  exact ⟨_, rfl, off.file, rfl, rfl, off.running⟩

theorem OffPath.allSynced {path : Option (List UInt8)} (off : OffPath w path) (later : List (List Event)) :
    (commitBatches k (later.map (·, .synced)) w).1 = later.flatten ∧
      (commitBatches k (later.map (·, .synced)) w).2.wal.disk.file = path := by
  induction later generalizing w with
  | nil => exact ⟨rfl, off.file⟩
  | cons events others ih =>
      obtain ⟨w', done, off'⟩ := off.synced (k := k) events
      obtain ⟨acknowledged, file⟩ := ih off'
      rw [List.map_cons, commitBatches_ok done, List.flatten_cons]
      exact ⟨by rw [acknowledged], file⟩

/-- After a compaction that failed, the log replays as it stood or as the compaction rewrote
    it, and what is acknowledged later replays behind that. -/
def SurvivesFailure (k : Crates) (fault : CompactFault) (stored snapshot : List Event) (later : List (List Event))
    (w : Writer) : Prop :=
  ∃ base, (base = stored ∨ base = mergeRecorded snapshot (w.recording.getD [])) ∧
    Wal.replay k (w.compact k (some fault) snapshot).2.wal.disk.file = .ok base ∧
    Wal.replay k (commitBatches k (later.map (·, .synced)) (w.compact k (some fault) snapshot).2).2.wal.disk.file =
      .ok (base ++ (commitBatches k (later.map (·, .synced)) (w.compact k (some fault) snapshot).2).1)

/-- In front of the rename a failure leaves the writer as it was. -/
theorem AtRest.compact_before (rest : AtRest k w stored) {fault : CompactFault} (before : fault.renamed = false)
    (snapshot : List Event) : AtRest k (w.compact k (some fault) snapshot).2 stored := by
  cases fault with
  | staging | swapping =>
      rw [compact]
      simp only [rest.running, Bool.false_eq_true, ↓reduceIte]
      exact ⟨rest.file, rest.buffer, rest.clean, rest.linked, rfl⟩
  | syncing | reopening => cases before

/-- Behind it the path has the new file and the handle is on the old one. -/
theorem AtRest.compact_behind (rest : AtRest k w stored) {fault : CompactFault} (behind : fault.renamed = true)
    (snapshot : List Event) : OffPath (w.compact k (some fault) snapshot).2
      (some (Wal.fileOf k (mergeRecorded snapshot (w.recording.getD [])))) := by
  cases fault with
  | staging | swapping => cases behind
  | syncing | reopening =>
      rw [compact]
      simp only [rest.running, Bool.false_eq_true, ↓reduceIte]
      exact ⟨rfl, rest.clean, rfl, rfl⟩

/-- A log replays exactly when each of its records can be read back. -/
theorem replay_fileOf_iff (decodes : k.Decodes) {events read : List Event} (proper : ∀ ev ∈ events, ev.Encodable) :
    Wal.replay k (some (Wal.fileOf k events)) = .ok read ↔
      (∀ ev ∈ events, ev.serialize.length ≤ Wal.maxWalRecordBytes) ∧ read = events := by
  have loggable : (∀ ev ∈ events, ev.serialize.length ≤ Wal.maxWalRecordBytes) → ∀ ev ∈ events, Wal.Loggable ev :=
    fun short ev inside => ⟨(proper ev inside).representable, (proper ev inside).spansValid, short ev inside⟩
  constructor
  · intro replayed
    have short := Wal.short_of_replay decodes (fun ev inside => ⟨(proper ev inside).representable,
      (proper ev inside).spansValid, (proper ev inside).counted⟩) replayed
    rw [Wal.replay_fileOf decodes (loggable short)] at replayed
    exact ⟨short, (Except.ok.inj replayed).symm⟩
  · rintro ⟨short, rfl⟩
    exact Wal.replay_fileOf decodes (loggable short)

/-- A failed compaction loses nothing exactly when the failure comes in front of the rename,
    or nothing is acknowledged after it, and the records that the path then has can be read
    back. -/
theorem survivesFailure_iff (decodes : k.Decodes) (rest : AtRest k w stored) (fault : CompactFault)
    (proper : ∀ ev ∈ stored ++ mergeRecorded snapshot (w.recording.getD []) ++ later.flatten, ev.Encodable) :
    SurvivesFailure k fault stored snapshot later w ↔
      (fault.renamed = false ∧ ∀ ev ∈ stored ++ later.flatten, ev.serialize.length ≤ Wal.maxWalRecordBytes) ∨
        (fault.renamed = true ∧ later.flatten = [] ∧
          ∀ ev ∈ mergeRecorded snapshot (w.recording.getD []), ev.serialize.length ≤ Wal.maxWalRecordBytes) := by
  unfold SurvivesFailure
  cases renamed : fault.renamed with
  | false =>
      have still := rest.compact_before renamed snapshot
      obtain ⟨w', after, run⟩ := @AtRest.allSynced _ _ _ still (later.map (·, .synced)) (by simp) []
      have events : (later.map fun batch => (batch, Flush.synced)).flatMap Prod.fst = later.flatten := by
        rw [List.flatMap_map, List.flatMap_id']
      rw [List.append_nil, events] at run
      rw [events] at after
      have properStored : ∀ ev ∈ stored, ev.Encodable := fun ev inside => proper ev (by simp [inside])
      have properAfter : ∀ ev ∈ stored ++ later.flatten, ev.Encodable := fun ev inside =>
        proper ev (by
          rcases List.mem_append.mp inside with old | new
          · simp [old]
          · simp [new])
      simp only [run, commitBatches, List.append_nil, still.file, after.file, replay_fileOf_iff decodes properStored,
        replay_fileOf_iff decodes properAfter]
      constructor
      · rintro ⟨base, _, _, short, _⟩
        exact .inl ⟨trivial, short⟩
      · rintro (⟨_, short⟩ | ⟨impossible, _⟩)
        · exact ⟨stored, .inl rfl, ⟨fun ev inside => short ev (List.mem_append_left _ inside), rfl⟩, short, rfl⟩
        · cases impossible
  | true =>
      have off := rest.compact_behind renamed snapshot
      obtain ⟨acknowledged, file⟩ := off.allSynced (k := k) later
      have properMerged : ∀ ev ∈ mergeRecorded snapshot (w.recording.getD []), ev.Encodable := fun ev inside =>
        proper ev (by simp [inside])
      simp only [acknowledged, file, off.file, replay_fileOf_iff decodes properMerged]
      constructor
      · rintro ⟨base, _, ⟨short, rfl⟩, _, same⟩
        exact .inr ⟨trivial, List.append_right_eq_self.mp same, short⟩
      · rintro (⟨impossible, _⟩ | ⟨_, nothing, short⟩)
        · cases impossible
        · rw [nothing]
          exact ⟨_, .inr rfl, ⟨short, rfl⟩, short, List.append_nil _⟩

/-- A writer on a log of one resource. -/
def oneResource : Writer := ⟨⟨⟨some (Wal.fileOf .bundled [.resourceCreated 1 none none 1 none]), none⟩, [], 0, false⟩,
  none, some [], false⟩

theorem oneResource_atRest : AtRest .bundled oneResource [.resourceCreated 1 none none 1 none] :=
  ⟨rfl, rfl, rfl, rfl, rfl⟩

/-- A booking acknowledged after the compaction failed. -/
def bookedLater : List (List Event) := [[.bookingConfirmed 2 1 ⟨10, 20⟩ none]]

theorem bookedLater_proper : ∀ ev ∈ [Event.resourceCreated 1 none none 1 none] ++
    mergeRecorded [.resourceCreated 1 none none 1 none] (oneResource.recording.getD []) ++ bookedLater.flatten,
    ev.Encodable := by
  have booked : (Event.bookingConfirmed 2 1 ⟨10, 20⟩ none).Encodable := by
    refine ⟨⟨?_, fun s labelled => ?_⟩, rfl, by decide⟩
    · unfold Span.Fits Bincode.FitsMs
      decide
    · cases labelled
  have merged : mergeRecorded [.resourceCreated 1 none none 1 none] (oneResource.recording.getD []) =
      [.resourceCreated 1 none none 1 none] := rfl
  rw [merged]
  rintro ev (_ | ⟨_, _ | ⟨_, _ | ⟨_, ⟨⟩⟩⟩⟩)
  · exact created_encodable
  · exact created_encodable
  · exact booked

theorem bookedLater_survives_iff :
    SurvivesFailure .bundled .syncing [.resourceCreated 1 none none 1 none] [.resourceCreated 1 none none 1 none]
        bookedLater oneResource ↔
      (CompactFault.syncing.renamed = false ∧ ∀ ev ∈ [Event.resourceCreated 1 none none 1 none] ++ bookedLater.flatten,
        ev.serialize.length ≤ Wal.maxWalRecordBytes) ∨
      (CompactFault.syncing.renamed = true ∧ bookedLater.flatten = [] ∧
        ∀ ev ∈ mergeRecorded [.resourceCreated 1 none none 1 none] (oneResource.recording.getD []),
          ev.serialize.length ≤ Wal.maxWalRecordBytes) :=
  survivesFailure_iff bundled_decodes oneResource_atRest .syncing bookedLater_proper

/-- The booking is acknowledged, and the path replays without it. -/
theorem bookedLater_lost : AtRest .bundled oneResource [.resourceCreated 1 none none 1 none] ∧
    (commitBatches .bundled (bookedLater.map (·, .synced))
      (oneResource.compact .bundled (some .syncing) [.resourceCreated 1 none none 1 none]).2).1 = bookedLater.flatten ∧
    ¬ SurvivesFailure .bundled .syncing [.resourceCreated 1 none none 1 none] [.resourceCreated 1 none none 1 none]
      bookedLater oneResource := by
  have off := @AtRest.compact_behind _ _ _ oneResource_atRest .syncing rfl [.resourceCreated 1 none none 1 none]
  obtain ⟨acknowledged, file⟩ := off.allSynced (k := .bundled) bookedLater
  refine ⟨oneResource_atRest, acknowledged, ?_⟩
  rintro ⟨base, _, before, after⟩
  rw [file, ← off.file, before, acknowledged] at after
  have nothing := List.append_right_eq_self.mp (Except.ok.inj after).symm
  cases nothing

end Writer

end Deltat
