import Deltat.Lib.Machine
import Deltat.WalClean

/-! # A tenant rebuilt while its old writer recovers

The flag that lets the manager rebuild a tenant is set before the old writer has cut its file
back. So the old writer's recovery and the rebuilt engine's opening and appending go through
two handles on one file, in any order. Each access to the file is a step of its own.
-/

namespace Deltat

open Lib Lib.Bytes

namespace Takeover

/-- The old writer, whose tenant has stopped. Its log has the current header, so its recovery
    neither migrates the file nor writes a header. -/
inductive Old where
  /-- The flag is set, recovery has not begun. -/
  | stopped (buffer : List UInt8)
  | scanned (validLen : Nat) (buffer : List UInt8)
  /-- The file was found longer than its valid part. -/
  | truncating (validLen : Nat) (buffer : List UInt8)
  /-- The writer was replaced and its buffer discarded. -/
  | recovered
  /-- Recovery failed, so the old writer keeps its buffer. -/
  | poisoned (buffer : List UInt8)
  | dropped
  deriving DecidableEq

/-- The rebuilt engine. -/
inductive New where
  | absent
  | replayed
  | scanned (validLen : Nat)
  | truncating (validLen : Nat)
  | ready
  /-- A batch is being flushed, with these bytes of it still to be written. -/
  | flushing (batch : List Event) (rest : List UInt8)
  deriving DecidableEq

structure State where
  file : List UInt8
  old : Old
  new : New
  /-- What the rebuilt engine has acknowledged. -/
  acknowledged : List Event
  /-- What the old writer's buffer put into the file once the rebuilt engine had opened it. -/
  leaked : List UInt8
  deriving DecidableEq

/-- The length that the old writer's recovery is about to cut the file to. -/
def Old.boundary : Old → Option Nat
  | .scanned validLen _ | .truncating validLen _ => some validLen
  | .stopped _ | .recovered | .poisoned _ | .dropped => none

/-- The same for the rebuilt engine's opening. -/
def New.boundary : New → Option Nat
  | .scanned validLen | .truncating validLen => some validLen
  | .absent | .replayed | .ready | .flushing _ _ => none

/-- Whether the rebuilt engine has opened the log. -/
def New.opened : New → Bool
  | .ready | .flushing _ _ => true
  | .absent | .replayed | .scanned _ | .truncating _ => false

inductive Action where
  | oldScan
  | oldMeasure
  | oldTruncate
  /-- An access to the file fails within the old writer's recovery. -/
  | oldFail
  /-- The old writer's task ends, and a buffer that was kept is flushed. -/
  | oldDrop
  | newReplay
  | newScan
  | newMeasure
  | newTruncate
  | newWrite (batch : List Event)
  /-- Some bytes of the batch reach the file. -/
  | newChunk (n : Nat)
  /-- All bytes are in the file and synced: the batch is acknowledged. -/
  | newSync
  deriving DecidableEq

/-- Set the length of a file, with zeros where it grows. -/
def setLen (n : Nat) (bytes : List UInt8) : List UInt8 := bytes.take n ++ List.replicate (n - bytes.length) 0

section Step

variable (k : Crates)

def step (s : State) : Action → Option State
  | .oldScan =>
      match s.old with
      | .stopped buffer =>
          match Wal.scan k (some s.file) with
          | .ok (_, validLen, _) => some { s with old := .scanned validLen buffer }
          | .error _ => some { s with old := .poisoned buffer }
      | _ => none
  | .oldMeasure =>
      match s.old with
      | .scanned validLen buffer =>
          some { s with old := if s.file.length > validLen then .truncating validLen buffer else .recovered }
      | _ => none
  | .oldTruncate =>
      match s.old with
      | .truncating validLen _ => some { s with file := setLen validLen s.file, old := .recovered }
      | _ => none
  | .oldFail =>
      match s.old with
      | .stopped buffer | .scanned _ buffer | .truncating _ buffer => some { s with old := .poisoned buffer }
      | _ => none
  | .oldDrop =>
      match s.old with
      | .poisoned buffer => some { s with
          file := s.file ++ buffer
          old := .dropped
          leaked := if s.new.opened then s.leaked ++ buffer else s.leaked }
      | .recovered => some { s with old := .dropped }
      | _ => none
  | .newReplay =>
      match s.new with
      | .absent =>
          match Wal.replay k (some s.file) with
          | .ok _ => some { s with new := .replayed }
          | .error _ => none
      | _ => none
  | .newScan =>
      match s.new with
      | .replayed =>
          match Wal.scan k (some s.file) with
          | .ok (_, validLen, _) => some { s with new := .scanned validLen }
          | .error _ => some { s with new := .absent }
      | _ => none
  | .newMeasure =>
      match s.new with
      | .scanned validLen => some { s with new := if s.file.length > validLen then .truncating validLen else .ready }
      | _ => none
  | .newTruncate =>
      match s.new with
      | .truncating validLen => some { s with file := setLen validLen s.file, new := .ready }
      | _ => none
  | .newWrite batch =>
      match s.new with
      | .ready => some { s with new := .flushing batch (batch.flatMap (Wal.encodeEvent k)) }
      | _ => none
  | .newChunk n =>
      match s.new with
      | .flushing batch rest => some { s with file := s.file ++ rest.take n, new := .flushing batch (rest.drop n) }
      | _ => none
  | .newSync =>
      match s.new with
      | .flushing batch [] => some { s with new := .ready, acknowledged := s.acknowledged ++ batch }
      | _ => none

end Step

/-- The old writer has stopped with some bytes in its buffer, and nobody has rebuilt the tenant. -/
structure Start (s : State) : Prop where
  header : Wal.header Wal.formatVersion <+: s.file
  old : ∃ buffer, s.old = .stopped buffer
  new : s.new = .absent
  acknowledged : s.acknowledged = []
  leaked : s.leaked = []

/-- Everything the rebuilt engine acknowledged is in the file and is replayed, and nothing of
    the old writer's buffer got there since. -/
def Unharmed (k : Crates) (s : State) : Prop :=
  s.leaked = [] ∧ (s.new.opened = true → ∃ before after,
    Wal.replay k (some s.file) = .ok (before ++ s.acknowledged ++ after))

/-- Once the rebuilt engine has opened the log, the old writer neither cuts the file nor drops
    a buffer that is not empty, and no batch has a record that is too long. -/
def Apart (s : State) : Action → Prop
  | .oldTruncate => s.new.opened = true → ∀ validLen buffer, s.old = .truncating validLen buffer → s.file.length ≤ validLen
  | .oldDrop => s.new.opened = true → ∀ buffer, s.old = .poisoned buffer → buffer = []
  | .newWrite batch => ∀ ev ∈ batch, Wal.Loggable ev
  | _ => True

/-! ## What the steps keep -/

section Invariant

variable {k : Crates} {s s' : State}

/-- The length of the valid part of a file. -/
def Valid (k : Crates) (file : List UInt8) (validLen : Nat) : Prop :=
  ∃ events, Wal.scan k (some file) = .ok (events, validLen, Wal.formatVersion)

theorem Valid.unique {file : List UInt8} {a b : Nat} (one : Valid k file a) (other : Valid k file b) : a = b := by
  obtain ⟨_, one⟩ := one
  obtain ⟨_, other⟩ := other
  cases one.symm.trans other
  rfl

/-- The file behind what the rebuilt engine found: what it acknowledged, and a part of the
    batch that is being flushed. -/
structure Flushing (k : Crates) (file : List UInt8) (acknowledged batch : List Event) (rest : List UInt8) : Prop where
  loggable : ∀ ev ∈ batch, Wal.Loggable ev
  written : ∃ found events n, Wal.Clean k found (events ++ acknowledged) ∧
    file = found ++ (batch.flatMap (Wal.encodeEvent k)).take n ∧ rest = (batch.flatMap (Wal.encodeEvent k)).drop n

/-- What holds while the old writer and the rebuilt engine stay apart. The two cut at the same
    length as long as neither has changed the file. -/
structure Invariant (k : Crates) (s : State) : Prop where
  header : Wal.header Wal.formatVersion <+: s.file
  oldBoundary : ∀ v, s.old.boundary = some v → Wal.headerBytes ≤ v ∧ v ≤ s.file.length
  oldValid : s.new.opened = false → s.new.boundary = none → ∀ v, s.old.boundary = some v → Valid k s.file v
  newBoundary : ∀ v, s.new.boundary = some v → v ≤ s.file.length ∧ ∃ events, Wal.Clean k (s.file.take v) events
  agree : ∀ v, s.new.boundary = some v → ∀ v', s.old.boundary = some v' → v' = v
  newValid : ∀ v, s.new.boundary = some v → ∀ buffer, s.old = .stopped buffer → Valid k s.file v
  unopened : s.new.opened = false → s.acknowledged = []
  ready : s.new = .ready → ∃ events, Wal.Clean k s.file (events ++ s.acknowledged)
  flushing : ∀ batch rest, s.new = .flushing batch rest → Flushing k s.file s.acknowledged batch rest
  leaked : s.leaked = []

theorem Start.invariant (start : Start s) : Invariant k s := by
  obtain ⟨buffer, old⟩ := start.old
  refine ⟨start.header, ?_, ?_, ?_, ?_, ?_, fun _ => start.acknowledged, ?_, ?_, start.leaked⟩
  all_goals simp [old, start.new, Old.boundary, New.boundary]

theorem setLen_of_le {n : Nat} {bytes : List UInt8} (within : n ≤ bytes.length) : setLen n bytes = bytes.take n := by
  rw [setLen, Nat.sub_eq_zero_of_le within, List.replicate_zero, List.append_nil]

/-- What the invariant says of a state is what it was made for. -/
theorem Invariant.unharmed (decodes : k.Decodes) (inv : Invariant k s) : Unharmed k s := by
  refine ⟨inv.leaked, fun opened => ?_⟩
  cases new : s.new with
  | absent | replayed | scanned | truncating =>
      rw [new] at opened
      cases opened
  | ready =>
      obtain ⟨events, clean⟩ := inv.ready new
      refine ⟨events, [], ?_⟩
      rw [Wal.replay, clean.scanned, List.append_nil]
      rfl
  | flushing batch rest =>
      obtain ⟨loggable, found, events, n, clean, file, _⟩ := inv.flushing batch rest new
      refine ⟨events, Lib.Frames.whole (Wal.encodeEvent k) batch n, ?_⟩
      rw [file, Wal.replay, clean.scan_records decodes loggable]
      rfl

/-- A step of the old writer that leaves the file. -/
theorem Invariant.withOld (inv : Invariant k s) {old : Old}
    (boundary : ∀ v, old.boundary = some v → Wal.headerBytes ≤ v ∧ v ≤ s.file.length)
    (valid : s.new.opened = false → s.new.boundary = none → ∀ v, old.boundary = some v → Valid k s.file v)
    (agree : ∀ v, s.new.boundary = some v → ∀ v', old.boundary = some v' → v' = v)
    (begun : ∀ buffer, old ≠ .stopped buffer) : Invariant k { s with old } :=
  ⟨inv.header, boundary, valid, inv.newBoundary, agree, fun _ _ buffer stopped => absurd stopped (begun buffer),
    inv.unopened, inv.ready, fun batch rest new => inv.flushing batch rest new, inv.leaked⟩

/-- The old writer no longer means to cut the file. -/
theorem Invariant.oldDone (inv : Invariant k s) {old : Old} (done : old.boundary = none)
    (begun : ∀ buffer, old ≠ .stopped buffer) : Invariant k { s with old } := by
  refine inv.withOld ?_ ?_ ?_ begun
  all_goals simp [done]

theorem Invariant.oldScan (inv : Invariant k s) {buffer : List UInt8} (old : s.old = .stopped buffer)
    {events : List Event} {validLen version : Nat}
    (scanned : Wal.scan k (some s.file) = .ok (events, validLen, version)) :
    Invariant k { s with old := .scanned validLen buffer } := by
  obtain ⟨rfl, behind, within, _⟩ := Wal.clean_take inv.header scanned
  refine inv.withOld ?_ ?_ ?_ (by simp)
  · rintro _ ⟨⟩
    exact ⟨behind, within⟩
  · rintro _ _ _ ⟨⟩
    exact ⟨events, scanned⟩
  · rintro v new _ ⟨⟩
    exact Valid.unique ⟨events, scanned⟩ (inv.newValid v new buffer old)

theorem Invariant.oldMeasure (inv : Invariant k s) {validLen : Nat} {buffer : List UInt8}
    (old : s.old = .scanned validLen buffer) : Invariant k { s with old := .truncating validLen buffer } := by
  have same : s.old.boundary = (Old.truncating validLen buffer).boundary := by rw [old]; rfl
  exact inv.withOld (fun v cut => inv.oldBoundary v (same.trans cut))
    (fun unopened settled v cut => inv.oldValid unopened settled v (same.trans cut))
    (fun v new v' cut => inv.agree v new v' (same.trans cut)) (by simp)

/-- The cut comes before the rebuilt engine has opened the log, at the length that it found
    as well, or it changes nothing. -/
theorem Invariant.oldTruncate (inv : Invariant k s) {validLen : Nat} {buffer : List UInt8}
    (old : s.old = .truncating validLen buffer) (apart : s.new.opened = true → s.file.length ≤ validLen) :
    Invariant k { s with file := setLen validLen s.file, old := .recovered } := by
  have cut : s.old.boundary = some validLen := by rw [old]; rfl
  obtain ⟨behind, within⟩ := inv.oldBoundary validLen cut
  rw [setLen_of_le within]
  cases opened : s.new.opened with
  | true =>
      rw [List.take_of_length_le (apart opened)]
      exact inv.oldDone rfl (by simp)
  | false =>
      have notReady : s.new ≠ .ready := by
        intro new
        rw [new] at opened
        cases opened
      have notFlushing : ∀ batch rest, s.new ≠ .flushing batch rest := by
        intro batch rest new
        rw [new] at opened
        cases opened
      refine ⟨?_, by simp [Old.boundary], by simp [Old.boundary], ?_, by simp [Old.boundary], by simp, inv.unopened,
        fun new => absurd new notReady, fun batch rest new => absurd new (notFlushing batch rest), inv.leaked⟩
      · rw [List.prefix_take_iff, Wal.length_header]
        exact ⟨inv.header, behind⟩
      · intro v new
        obtain rfl := inv.agree v new validLen cut
        obtain ⟨_, events, clean⟩ := inv.newBoundary validLen new
        rw [List.length_take, List.take_take, Nat.min_self, Nat.min_eq_left within]
        exact ⟨Nat.le_refl _, events, clean⟩

theorem Invariant.oldDrop (inv : Invariant k s) {buffer : List UInt8}
    (apart : s.new.opened = true → buffer = []) : Invariant k { s with
      file := s.file ++ buffer
      old := .dropped
      leaked := if s.new.opened then s.leaked ++ buffer else s.leaked } := by
  cases opened : s.new.opened with
  | true =>
      rw [apart opened, List.append_nil, List.append_nil, if_pos rfl]
      exact inv.oldDone rfl (by simp)
  | false =>
      have notReady : s.new ≠ .ready := by
        intro new
        rw [new] at opened
        cases opened
      have notFlushing : ∀ batch rest, s.new ≠ .flushing batch rest := by
        intro batch rest new
        rw [new] at opened
        cases opened
      refine ⟨inv.header.trans (List.prefix_append _ _), by simp [Old.boundary], by simp [Old.boundary], ?_,
        by simp [Old.boundary], by simp, inv.unopened, fun new => absurd new notReady,
        fun batch rest new => absurd new (notFlushing batch rest), inv.leaked⟩
      intro v new
      obtain ⟨within, events, clean⟩ := inv.newBoundary v new
      rw [List.length_append, List.take_append_of_le_length within]
      exact ⟨within.trans (Nat.le_add_right _ _), events, clean⟩

/-- A step of the rebuilt engine that leaves the file and has not opened it. -/
theorem Invariant.withNew (inv : Invariant k s) {new : New} (opened : s.new.opened = false)
    (unopened : new.opened = false)
    (settled : new.boundary = none → s.new.boundary = none)
    (boundary : ∀ v, new.boundary = some v → v ≤ s.file.length ∧ ∃ events, Wal.Clean k (s.file.take v) events)
    (agree : ∀ v, new.boundary = some v → ∀ v', s.old.boundary = some v' → v' = v)
    (valid : ∀ v, new.boundary = some v → ∀ buffer, s.old = .stopped buffer → Valid k s.file v) :
    Invariant k { s with new } := by
  refine ⟨inv.header, inv.oldBoundary, fun _ none => inv.oldValid opened (settled none), boundary, agree, valid,
    fun _ => inv.unopened opened, ?_, ?_, inv.leaked⟩
  · rintro rfl
    cases unopened
  · rintro batch rest rfl
    cases unopened

theorem Invariant.newScan (inv : Invariant k s) (new : s.new = .replayed) {events : List Event} {validLen version : Nat}
    (scanned : Wal.scan k (some s.file) = .ok (events, validLen, version)) :
    Invariant k { s with new := .scanned validLen } := by
  have unopened : s.new.opened = false := by rw [new]; rfl
  have settled : s.new.boundary = none := by rw [new]; rfl
  obtain ⟨rfl, _, within, clean⟩ := Wal.clean_take inv.header scanned
  refine inv.withNew unopened rfl (by simp [New.boundary]) ?_ ?_ ?_
  · rintro _ ⟨⟩
    exact ⟨within, events, clean⟩
  · rintro _ ⟨⟩ v' cut
    exact (inv.oldValid unopened settled v' cut).unique ⟨events, scanned⟩
  · rintro _ ⟨⟩ _ _
    exact ⟨events, scanned⟩

/-- The rebuilt engine has opened a clean file. -/
theorem Invariant.opens (inv : Invariant k s) {validLen : Nat} (unopened : s.new.opened = false)
    (cut : s.new.boundary = some validLen) :
    Invariant k { s with file := s.file.take validLen, new := .ready } := by
  obtain ⟨within, events, clean⟩ := inv.newBoundary validLen cut
  have none : s.acknowledged = [] := inv.unopened unopened
  refine ⟨clean.header, ?_, by simp [New.opened], by simp [New.boundary], by simp [New.boundary],
    by simp [New.boundary], by simp [New.opened], fun _ => ⟨events, ?_⟩, by simp, inv.leaked⟩
  · intro v old
    obtain rfl := inv.agree validLen cut v old
    rw [List.length_take, Nat.min_eq_left within]
    exact ⟨(inv.oldBoundary v old).1, Nat.le_refl _⟩
  · simp only [none, List.append_nil]
    exact clean

/-- A step of the opened engine, which only appends to the file. -/
theorem Invariant.appends (inv : Invariant k s) {new : New} {more : List UInt8} {acknowledged : List Event}
    (opened : new.opened = true)
    (ready : new = .ready → ∃ events, Wal.Clean k (s.file ++ more) (events ++ acknowledged))
    (flushing : ∀ batch rest, new = .flushing batch rest → Flushing k (s.file ++ more) acknowledged batch rest) :
    Invariant k { s with file := s.file ++ more, new, acknowledged } := by
  have settled : new.boundary = none := by
    cases new with
    | absent | replayed | scanned | truncating => cases opened
    | ready | flushing => rfl
  refine ⟨inv.header.trans (List.prefix_append _ _), ?_, by simp [opened], by simp [settled], by simp [settled],
    by simp [settled], by simp [opened], ready, flushing, inv.leaked⟩
  intro v old
  obtain ⟨behind, within⟩ := inv.oldBoundary v old
  rw [List.length_append]
  exact ⟨behind, within.trans (Nat.le_add_right _ _)⟩

/-- Every step that keeps the two apart keeps the invariant. -/
theorem Invariant.next (decodes : k.Decodes) (inv : Invariant k s) {a : Action} (apart : Apart s a)
    (taken : step k s a = some s') : Invariant k s' := by
  cases a with
  | oldScan =>
      simp only [step] at taken
      split at taken
      · next buffer old =>
          split at taken
          · next scanned =>
              cases taken
              exact inv.oldScan old scanned
          · cases taken
            exact inv.oldDone rfl (by simp)
      · cases taken
  | oldMeasure =>
      simp only [step] at taken
      split at taken
      · next validLen buffer old =>
          cases taken
          split
          · exact inv.oldMeasure old
          · exact inv.oldDone rfl (by simp)
      · cases taken
  | oldTruncate =>
      simp only [step] at taken
      split at taken
      · next validLen buffer old =>
          cases taken
          exact inv.oldTruncate old fun opened => apart opened validLen buffer old
      · cases taken
  | oldFail =>
      simp only [step] at taken
      split at taken
      · cases taken
        exact inv.oldDone rfl (by simp)
      · cases taken
        exact inv.oldDone rfl (by simp)
      · cases taken
        exact inv.oldDone rfl (by simp)
      · cases taken
  | oldDrop =>
      simp only [step] at taken
      split at taken
      · next buffer old =>
          cases taken
          exact inv.oldDrop fun opened => apart opened buffer old
      · cases taken
        exact inv.oldDone rfl (by simp)
      · cases taken
  | newReplay =>
      simp only [step] at taken
      split at taken
      · next new =>
          split at taken
          · cases taken
            refine inv.withNew (by rw [new]; rfl) rfl (fun _ => by rw [new]; rfl) ?_ ?_ ?_
            all_goals simp [New.boundary]
          · cases taken
      · cases taken
  | newScan =>
      simp only [step] at taken
      split at taken
      · next new =>
          split at taken
          · next scanned =>
              cases taken
              exact inv.newScan new scanned
          · cases taken
            refine inv.withNew (by rw [new]; rfl) rfl (fun _ => by rw [new]; rfl) ?_ ?_ ?_
            all_goals simp [New.boundary]
      · cases taken
  | newMeasure =>
      simp only [step] at taken
      split at taken
      · next validLen new =>
          have cut : s.new.boundary = some validLen := by rw [new]; rfl
          have unopened : s.new.opened = false := by rw [new]; rfl
          cases taken
          split
          · exact inv.withNew unopened rfl (by simp [New.boundary])
              (fun v same => inv.newBoundary v (cut.trans same)) (fun v same => inv.agree v (cut.trans same))
              (fun v same => inv.newValid v (cut.trans same))
          · next notLonger =>
              have opens := inv.opens unopened cut
              rwa [List.take_of_length_le (Nat.le_of_not_lt notLonger)] at opens
      · cases taken
  | newTruncate =>
      simp only [step] at taken
      split at taken
      · next validLen new =>
          have cut : s.new.boundary = some validLen := by rw [new]; rfl
          cases taken
          rw [setLen_of_le (inv.newBoundary validLen cut).1]
          exact inv.opens (by rw [new]; rfl) cut
      · cases taken
  | newWrite batch =>
      simp only [step] at taken
      split at taken
      · next new =>
          cases taken
          obtain ⟨events, clean⟩ := inv.ready new
          have appends := @Invariant.appends k s inv (.flushing batch (batch.flatMap (Wal.encodeEvent k))) []
            s.acknowledged rfl (by simp) (by
              rintro _ _ ⟨⟩
              exact ⟨apart, s.file, events, 0, clean, rfl, rfl⟩)
          rwa [List.append_nil] at appends
      · cases taken
  | newChunk n =>
      simp only [step] at taken
      split at taken
      · next batch rest new =>
          cases taken
          obtain ⟨loggable, found, events, m, clean, file, rfl⟩ := inv.flushing batch rest new
          refine inv.appends rfl (by simp) ?_
          rintro _ _ ⟨⟩
          refine ⟨loggable, found, events, m + n, clean, ?_, ?_⟩
          · rw [file, List.append_assoc, List.take_add]
          · rw [List.drop_drop]
      · cases taken
  | newSync =>
      simp only [step] at taken
      split at taken
      · next batch new =>
          cases taken
          obtain ⟨loggable, found, events, m, clean, file, nothing⟩ := inv.flushing batch [] new
          have whole : (batch.flatMap (Wal.encodeEvent k)).take m = batch.flatMap (Wal.encodeEvent k) :=
            List.take_of_length_le (List.drop_eq_nil_iff.mp nothing.symm)
          rw [whole] at file
          have appends := @Invariant.appends k s inv .ready [] (s.acknowledged ++ batch) rfl
            (fun _ => ⟨events, by
              rw [List.append_nil, file, ← List.append_assoc]
              exact clean.append decodes loggable⟩) (by simp)
          rwa [List.append_nil] at appends
      · cases taken

end Invariant

/-- While the old writer and the rebuilt engine stay apart, everything acknowledged is
    replayed, and nothing of the old writer's buffer reaches the file. -/
theorem apart_unharmed {k : Crates} (decodes : k.Decodes) {s₀ s : State} (start : Start s₀)
    (reached : Machine.Reaches (step k) Apart s₀ s) : Unharmed k s :=
  (reached.invariant start.invariant fun _ _ _ inv apart taken => inv.next decodes apart taken).unharmed decodes

/-- A log of one resource with a torn record behind it, when its tenant has stopped. -/
def torn : State :=
  ⟨Wal.fileOf .bundled [.resourceCreated 1 none none 1 none] ++ [40, 0], .stopped [], .absent, [], []⟩

theorem torn_start : Start torn := by
  refine ⟨?_, ⟨[], rfl⟩, rfl, rfl, rfl⟩
  rw [torn, Wal.fileOf, List.append_assoc]
  exact List.prefix_append _ _

/-- The tenant is rebuilt and a booking is acknowledged while the old writer is about to cut. -/
def overtaking : List Action :=
  [.oldScan, .oldMeasure, .newReplay, .newScan, .newMeasure, .newTruncate,
    .newWrite [.bookingConfirmed 2 1 ⟨10, 20⟩ none], .newChunk 1000, .newSync]

def overtaken : State := (Machine.run (step .bundled) overtaking torn).getD torn

theorem overtaken_ran : Machine.run (step .bundled) overtaking torn = some overtaken := by
  have possible : (Machine.run (step .bundled) overtaking torn).isSome := by decide +kernel
  obtain ⟨s, ran⟩ := Option.isSome_iff_exists.mp possible
  rw [overtaken, ran]
  rfl

theorem overtaking_apart : ∀ a ∈ overtaking, ∀ s, Apart s a := by
  intro a inside s
  simp only [overtaking, List.mem_cons, List.not_mem_nil, or_false] at inside
  rcases inside with rfl | rfl | rfl | rfl | rfl | rfl | rfl | rfl | rfl
  case inr.inr.inr.inr.inr.inr.inl =>
    rintro ev (_ | ⟨_, ⟨⟩⟩)
    refine ⟨⟨?_, fun s labelled => ?_⟩, rfl, by decide⟩
    · unfold Span.Fits Bincode.FitsMs
      decide
    · cases labelled
  all_goals trivial

theorem overtaken_unharmed : Unharmed .bundled overtaken :=
  apart_unharmed bundled_decodes torn_start (Machine.reaches_of_run overtaking_apart overtaken_ran)

/-- Then the old writer cuts the file where it found its end before. -/
def cutBack : State := ((step .bundled) overtaken .oldTruncate).getD overtaken

theorem cutBack_harmed : Start torn ∧ Machine.Reaches (step .bundled) (fun _ _ => True) torn cutBack ∧
    cutBack.acknowledged = [.bookingConfirmed 2 1 ⟨10, 20⟩ none] ∧ ¬ Unharmed .bundled cutBack := by
  have possible : ((step .bundled) overtaken .oldTruncate).isSome := by decide +kernel
  obtain ⟨s, taken⟩ := Option.isSome_iff_exists.mp possible
  have same : s = cutBack := by rw [cutBack, taken]; rfl
  rw [same] at taken
  have acknowledged : cutBack.acknowledged = [.bookingConfirmed 2 1 ⟨10, 20⟩ none] := by decide +kernel
  have opened : cutBack.new.opened = true := by decide +kernel
  have replayed : Wal.replay .bundled (some cutBack.file) = .ok [.resourceCreated 1 none none 1 none] := by
    decide +kernel
  refine ⟨torn_start, .next _ (Machine.reaches_of_run (fun _ _ _ => trivial) overtaken_ran) trivial taken,
    acknowledged, fun unharmed => ?_⟩
  obtain ⟨before, after, found⟩ := unharmed.2 opened
  have lists := Except.ok.inj (replayed.symm.trans found)
  have inside : Event.bookingConfirmed 2 1 ⟨10, 20⟩ none ∈ before ++ cutBack.acknowledged ++ after := by
    simp [acknowledged]
  rw [← lists] at inside
  rcases inside with _ | ⟨_, ⟨⟩⟩

end Takeover

end Deltat
