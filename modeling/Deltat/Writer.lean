import Deltat.Compaction
import Deltat.Wal

/-! # The log writer and its faults

One task owns the log. It appends a batch, flushes it under one fsync and answers its callers.
A failed flush stops the tenant: every later write is refused, and the file is cut back to its
last good record. A compaction stages a file, renames it over the log and opens the log again,
and any of these steps can fail.
-/

namespace Deltat

/-- How the flush of a batch ends. -/
inductive Flush where
  | synced
  /-- An error after some of the batch's bytes reached the file. Of the bytes behind them some
      may still be in the buffer. -/
  | failed (reached left : Nat)
  deriving DecidableEq

/-- Where a compaction fails. -/
inductive CompactFault where
  /-- Creating, writing or syncing the staged file, which is left with these bytes. -/
  | staging (left : Option (List UInt8))
  /-- Renaming the staged file over the log. -/
  | swapping
  /-- Syncing the directory. -/
  | syncing
  | reopening
  deriving DecidableEq

/-- The background task that owns the log. -/
structure Writer where
  wal : Wal
  /-- The bytes of the file that the handle is on, when the log's path has another file by now. -/
  unlinked : Option (List UInt8)
  /-- Events acknowledged since a compaction began, none outside its window. -/
  recording : Option (List Event)
  failed : Bool
  deriving DecidableEq

namespace Wal

section Crates

variable (k : Crates)

/-- Reset after a failed flush: discard the buffer and reopen at the last good record. -/
def recover (wal : Wal) : Wal :=
  match «open» k wal.disk with
  | .ok fresh => { fresh with appendsSinceCompact := wal.appendsSinceCompact }
  | .error _ => { wal with poisoned := true }

/-- A flush that fails with a part of the buffer in the file. -/
def flushPart (reached left : Nat) (wal : Wal) : Wal :=
  { wal with
    disk := { wal.disk with file := some (wal.disk.file.getD [] ++ wal.buffer.take reached) }
    buffer := (wal.buffer.drop reached).take left }

/-- Append a batch and flush it, on a device that ends the flush as given. -/
def appendAndFlush (flush : Flush) (events : List Event) (wal : Wal) : Except IoError Unit × Wal :=
  match events.foldlM (fun wal ev => appendBuffered k ev wal) wal with
  | .error error => (.error error, wal)
  | .ok full =>
      match flush with
      | .synced =>
          match flushSync full with
          | .ok wal => (.ok (), wal)
          | .error error => (.error error, full)
      | .failed reached left => (.error (.other "flush failed"), flushPart reached left full)

end Crates

end Wal

namespace Writer

def stopped : IoError :=
  .other "this tenant stopped after a failed WAL flush; it is rebuilt from its log on next use"

/-- The log as the open handle sees it. -/
def throughHandle (w : Writer) : Wal :=
  match w.unlinked with
  | none => w.wal
  | some bytes => { w.wal with disk := { w.wal.disk with file := some bytes } }

/-- The writer after its handle changed the log. -/
def withHandle (w : Writer) (wal : Wal) : Writer :=
  match w.unlinked with
  | none => { w with wal }
  | some _ => { w with wal := { wal with disk := w.wal.disk }, unlinked := wal.disk.file }

section Crates

variable (k : Crates)

/-- Stop the tenant and cut its log back. Recovery works on the path. -/
def stop (w : Writer) : Writer :=
  let wal := Wal.recover k w.wal
  { w with wal, failed := true, unlinked := if wal.poisoned then w.unlinked else none }

/-- Write and sync a batch as one flush, or refuse if the tenant has stopped. -/
def write (flush : Flush) (events : List Event) (w : Writer) : Except IoError Unit × Writer :=
  if w.failed then (.error stopped, w)
  else
    match Wal.appendAndFlush k flush events w.throughHandle with
    | (.ok (), wal) => (.ok (), w.withHandle wal)
    | (.error error, wal) => (.error error, (w.withHandle wal).stop k)

/-- Only acknowledged events are recorded. -/
def record (events : List Event) (w : Writer) : Writer := { w with recording := w.recording.map (· ++ events) }

/-- Write a batch, record it, and answer its callers. -/
def commitBatch (flush : Flush) (events : List Event) (w : Writer) : Except IoError Unit × Writer :=
  match w.write k flush events with
  | (.ok (), w) => (.ok (), w.record events)
  | (.error error, w) => (.error error, w)

/-- The events acknowledged by a sequence of batches, and the writer after them. -/
def commitBatches : List (List Event × Flush) → Writer → List Event × Writer
  | [], w => ([], w)
  | (events, flush) :: rest, w =>
      match w.commitBatch k flush events with
      | (.ok (), w) => (events ++ (commitBatches rest w).1, (commitBatches rest w).2)
      | (.error _, w) => commitBatches rest w

/-- Rewrite the log as a snapshot and what was recorded, on a device that fails as given. A
    failure behind the rename leaves the handle on the file that was renamed over. -/
def compact (fault : Option CompactFault) (events : List Event) (w : Writer) : Except IoError Unit × Writer :=
  let recorded := w.recording.getD []
  let w := { w with recording := none }
  if w.failed then (.error stopped, w)
  else
    let events := Compaction.mergeRecorded events recorded
    let staged := Wal.writeCompactFile k events w.wal.disk
    let old := w.throughHandle.disk.file.getD []
    match fault with
    | none => (.ok (), { w with wal := Wal.swapCompactFile { w.wal with disk := staged }, unlinked := none })
    | some (.staging left) =>
        (.error (.other "staging failed"), { w with wal := { w.wal with disk := { w.wal.disk with staged := left } } })
    | some .swapping => (.error (.other "rename failed"), { w with wal := { w.wal with disk := staged } })
    | some .syncing | some .reopening =>
        (.error (.other "swap failed"),
          { w with wal := { w.wal with disk := Wal.swapTempIntoPlace staged }, unlinked := some old })

end Crates

end Writer

end Deltat
