import Deltat.Bincode

/-! # The append-only write-ahead log

One `[len][payload][crc32]` record per event, after a header with a magic and a version. A
torn or corrupt record at the tail is a normal crash artifact: replay stops there, and `open`
truncates back to the last good record boundary. A bad record followed by more data is
corruption in the middle of the log and an error.
-/

namespace Deltat

open Lib.Bytes

namespace Wal

/-! ## Format -/

/-- Upper bound on a single record's payload. -/
def maxWalRecordBytes : Nat := 2 ^ 20

/-- Bytes of framing around a payload: the length prefix and the CRC suffix. -/
def recordFramingBytes : Nat := 8

/-- Marks a file as a log of this program: the bytes of `DELTATWL`. -/
def magic : List UInt8 := [0x44, 0x45, 0x4C, 0x54, 0x41, 0x54, 0x57, 0x4C]

def formatVersion : Nat := 2

/-- Files written before there was a header begin with a record. -/
def legacyFormatVersion : Nat := 0

def headerBytes : Nat := magic.length + 2

end Wal

/-- An I/O error with its text. -/
inductive IoError where
  | invalidData (text : String)
  | other (text : String)
  deriving DecidableEq

/-- What the log takes from the crates it is built on: the checksum of a payload, and the
    decoding of a payload. -/
structure Crates where
  crc32 : List UInt8 → UInt32
  deserialize : List UInt8 → Option Event

/-- One bit of the CRC-32 register, lowest bit first. -/
def crc32Bit (crc : UInt32) : UInt32 :=
  if crc &&& 1 = 1 then (crc >>> 1) ^^^ 0xEDB88320 else crc >>> 1

def crc32Byte (crc : UInt32) (b : UInt8) : UInt32 := Nat.repeat crc32Bit 8 (crc ^^^ b.toUInt32)

/-- The crates themselves. -/
def Crates.bundled : Crates where
  crc32 bytes := ~~~ (bytes.foldl crc32Byte 0xFFFFFFFF)
  deserialize := Event.deserialize

/-- The two files that the log's directory may hold: the log and the one staged to replace it. -/
structure Disk where
  file : Option (List UInt8)
  staged : Option (List UInt8)
  deriving DecidableEq

/-- The open log: its file and its staged file, and the bytes not yet flushed. -/
structure Wal where
  disk : Disk
  buffer : List UInt8
  appendsSinceCompact : Nat
  /-- Set when a flush failed and no clean tail could be re-established. -/
  poisoned : Bool
  deriving DecidableEq

namespace Wal

/-- The header that a file of this version begins with. -/
def header (version : Nat) : List UInt8 := magic ++ le 2 version

def newerFormat (version : Nat) : IoError :=
  .invalidData (s!"WAL is format version {version}, written by a newer deltat; this binary reads " ++
    s!"up to {formatVersion}. Refusing to open it rather than misread your data: " ++
    "run the newer version, or move this file aside.")

def midLogCorruption (offset : Nat) (what : String) : IoError :=
  .invalidData (s!"WAL corrupt at byte {offset}: {what}, but valid data follows; " ++
    "refusing to silently drop acknowledged records")

/-- Where a file's records begin, and which format wrote them. -/
def readHeader (bytes : List UInt8) : Except IoError (Nat × Nat) :=
  if bytes.length < headerBytes then .ok (0, legacyFormatVersion)
  else if bytes.take magic.length ≠ magic then .ok (0, legacyFormatVersion)
  else
    let version := ofLe ((bytes.drop magic.length).take 2)
    if version > formatVersion then .error (newerFormat version) else .ok (headerBytes, version)

section Crates

variable (k : Crates)

/-- One record: the length of the payload as 32 bits, the payload and its checksum. -/
def encodeEvent (ev : Event) : List UInt8 :=
  le 4 ev.serialize.length ++ (ev.serialize ++ le 4 (k.crc32 ev.serialize).toNat)

/-- The reading loop, from the end of the valid prefix on. The first argument bounds the
    number of records. -/
def scanFrom (fileLen : Nat) : Nat → List Event → Nat → List UInt8 → Except IoError (List Event × Nat)
  | 0, events, validLen, _ => .ok (events, validLen)
  | fuel + 1, events, validLen, rest =>
      match readExact 4 rest with
      | none => .ok (events, validLen)
      | some (lenBuf, rest) =>
          let len := ofLe lenBuf
          if len > maxWalRecordBytes then
            -- The extent of the record is unknowable: one torn append leaves at most one record.
            if fileLen - validLen ≤ recordFramingBytes + maxWalRecordBytes then .ok (events, validLen)
            else .error (midLogCorruption validLen "implausible record length")
          else
            match readExact len rest with
            | none => .ok (events, validLen)
            | some (payload, rest) =>
                match readExact 4 rest with
                | none => .ok (events, validLen)
                | some (crcBuf, rest) =>
                    let recordEnd := validLen + (recordFramingBytes + len)
                    let atTail := decide (recordEnd = fileLen)
                    if ofLe crcBuf ≠ (k.crc32 payload).toNat then
                      if atTail then .ok (events, validLen)
                      else .error (midLogCorruption validLen "record fails its CRC")
                    else
                      match k.deserialize payload with
                      | some ev =>
                          if ev.spansValid then scanFrom fileLen fuel (events ++ [ev]) recordEnd rest
                          else if atTail then .ok (events, validLen)
                          else .error (midLogCorruption validLen "record has an invalid span")
                      | none =>
                          if atTail then .ok (events, validLen)
                          else .error (midLogCorruption validLen "record fails to decode")

/-- The events of the valid prefix, its length, and the version that wrote it. A file that
    does not exist is about to be created at the current version. -/
def scan : Option (List UInt8) → Except IoError (List Event × Nat × Nat)
  | none => .ok ([], 0, formatVersion)
  | some bytes => do
      let (headerLen, version) ← readHeader bytes
      let (events, validLen) ← scanFrom k bytes.length (bytes.length + 1) [] headerLen (bytes.drop headerLen)
      return (events, validLen, version)

/-- The valid events of the log on disk. -/
def replay (file : Option (List UInt8)) : Except IoError (List Event) := do
  let (events, _) ← scan k file
  return events

/-- The bytes of a file of these events. -/
def fileOf (events : List Event) : List UInt8 := header formatVersion ++ events.flatMap (encodeEvent k)

/-- Stage the file of a compaction or of a migration. -/
def writeCompactFile (events : List Event) (disk : Disk) : Disk := { disk with staged := some (fileOf k events) }

/-- Rename the staged file over the log. -/
def swapTempIntoPlace (disk : Disk) : Disk := ⟨disk.staged, none⟩

/-- Open or create the log, without a torn tail and at the current version. -/
def «open» (disk : Disk) : Except IoError Wal := do
  let (events, scannedLen, version) ← scan k disk.file
  -- An older file is rewritten before it can take a record of the current format.
  let disk := if version < formatVersion ∧ scannedLen > 0 then swapTempIntoPlace (writeCompactFile k events disk)
    else disk
  let bytes := disk.file.getD []
  let validLen := if version < formatVersion ∧ scannedLen > 0 then bytes.length else scannedLen
  let bytes := if bytes.length > validLen then bytes.take validLen else bytes
  let bytes := if bytes.length = 0 then header formatVersion else bytes
  return ⟨{ disk with file := some bytes }, [], 0, false⟩

/-- Append an event to the buffer. -/
def appendBuffered (ev : Event) (wal : Wal) : Except IoError Wal :=
  if wal.poisoned then .error (.other "WAL poisoned by an earlier flush failure")
  else .ok { wal with
    buffer := wal.buffer ++ encodeEvent k ev
    appendsSinceCompact := wal.appendsSinceCompact + 1 }

/-- Write the buffer to the file. -/
def flushSync (wal : Wal) : Except IoError Wal :=
  if wal.poisoned then .error (.other "WAL poisoned by an earlier flush failure")
  else .ok { wal with
    disk := { wal.disk with file := some (wal.disk.file.getD [] ++ wal.buffer) }
    buffer := [] }

/-- What the writer does with a batch: append all of it, then flush once. -/
def appendAndSync (events : List Event) (wal : Wal) : Except IoError Wal := do
  let wal ← events.foldlM (fun wal ev => appendBuffered k ev wal) wal
  flushSync wal

/-- Rename the staged file over the log and reopen it there. -/
def swapCompactFile (wal : Wal) : Wal := ⟨swapTempIntoPlace wal.disk, [], 0, false⟩

/-- Replace the log by the events that recreate the current state. -/
def compact (events : List Event) (wal : Wal) : Wal :=
  swapCompactFile { wal with disk := writeCompactFile k events wal.disk }

end Crates

end Wal

end Deltat
