import Deltat.Lib.Codec
import Deltat.Model

/-! # The encoding of a record

Records are written by bincode: fixed-width little-endian numbers, `u64` length prefixes, a
byte for an option and four for an enum variant. An id is written as its 26-character text.
-/

namespace Deltat

open Lib.Bytes Lib.Codec

namespace Bincode

/-! ## Ids as text -/

/-- Crockford's 32 symbols. -/
def symbols : List UInt8 := "0123456789ABCDEFGHJKMNPQRSTVWXYZ".toByteArray.data.toList

def symbol (digit : Nat) : UInt8 := symbols.getD (digit % 32) 0

def symbolValue (c : UInt8) : Option Nat := symbols.findIdx? (· = c)

/-- The text of a number in `n` symbols, most significant first. -/
def encodeDigits : Nat → Nat → List UInt8
  | 0, _ => []
  | n + 1, x => encodeDigits n (x / 32) ++ [symbol x]

def decodeDigits (text : List UInt8) : Option Nat :=
  text.foldlM (fun value c => (symbolValue c).map (32 * value + ·)) 0

/-! ## Writing -/

def putString (bytes : List UInt8) : List UInt8 := le 8 bytes.length ++ bytes

def putText (s : String) : List UInt8 := putString s.toByteArray.data.toList

def putUlid (id : Ulid) : List UInt8 := putString (encodeDigits 26 id.val)

def putMs (ms : Ms) : List UInt8 := le 8 (ms % 2 ^ 64).toNat

def putSpan (span : Span) : List UInt8 := putMs span.start ++ putMs span.end

def putU32 (n : UInt32) : List UInt8 := le 4 n.toNat

def putCommit (c : HoldCommit) : List UInt8 :=
  putUlid c.holdId ++ (putUlid c.bookingId ++ (putUlid c.resourceId ++ (putSpan c.span ++
    encodeOption putText c.label)))

end Bincode

open Bincode

/-- The payload of a record. -/
def Event.serialize : Event → List UInt8
  | resourceCreated id parentId name capacity bufferAfter =>
      le 4 0 ++ (putUlid id ++ (encodeOption putUlid parentId ++ (encodeOption putText name ++
        (putU32 capacity ++ encodeOption putMs bufferAfter))))
  | resourceUpdated id name capacity bufferAfter =>
      le 4 1 ++ (putUlid id ++ (encodeOption (encodeOption putText) name ++
        (encodeOption putU32 capacity ++ encodeOption (encodeOption putMs) bufferAfter)))
  | resourceDeleted id => le 4 2 ++ putUlid id
  | ruleAdded id resourceId span blocking =>
      le 4 3 ++ (putUlid id ++ (putUlid resourceId ++ (putSpan span ++ encodeFlag blocking)))
  | ruleUpdated id resourceId span blocking =>
      le 4 4 ++ (putUlid id ++ (putUlid resourceId ++ (putSpan span ++ encodeFlag blocking)))
  | ruleRemoved id resourceId => le 4 5 ++ (putUlid id ++ putUlid resourceId)
  | holdPlaced id resourceId span expiresAt =>
      le 4 6 ++ (putUlid id ++ (putUlid resourceId ++ (putSpan span ++ putMs expiresAt)))
  | holdReleased id resourceId => le 4 7 ++ (putUlid id ++ putUlid resourceId)
  | bookingConfirmed id resourceId span label =>
      le 4 8 ++ (putUlid id ++ (putUlid resourceId ++ (putSpan span ++ encodeOption putText label)))
  | bookingCancelled id resourceId => le 4 9 ++ (putUlid id ++ putUlid resourceId)
  | holdsCommitted commits => le 4 10 ++ (le 8 commits.length ++ commits.flatMap putCommit)

namespace Bincode

/-! ## Reading -/

def getString : Decoder (List UInt8) := do take (← number 8)

def getText : Decoder String := do
  match String.fromUTF8? ⟨(← getString).toArray⟩ with
  | some s => return s
  | none => failure

def getUlid : Decoder Ulid := do
  let text ← getString
  match decodeDigits text with
  | some value => if text.length = 26 then return Fin.ofNat _ value else failure
  | none => failure

def getMs : Decoder Ms := (fun n : Nat => Int.bmod n (2 ^ 64)) <$> number 8

def getSpan : Decoder Span := do
  let start ← getMs
  let stop ← getMs
  return ⟨start, stop⟩

def getU32 : Decoder UInt32 := UInt32.ofNat <$> number 4

def getCommit : Decoder HoldCommit := do
  let holdId ← getUlid
  let bookingId ← getUlid
  let resourceId ← getUlid
  let span ← getSpan
  let label ← option getText
  return ⟨holdId, bookingId, resourceId, span, label⟩

def getEvent : Decoder Event := do
  match ← number 4 with
  | 0 =>
      let id ← getUlid
      let parentId ← option getUlid
      let name ← option getText
      let capacity ← getU32
      let bufferAfter ← option getMs
      return .resourceCreated id parentId name capacity bufferAfter
  | 1 =>
      let id ← getUlid
      let name ← option (option getText)
      let capacity ← option getU32
      let bufferAfter ← option (option getMs)
      return .resourceUpdated id name capacity bufferAfter
  | 2 =>
      let id ← getUlid
      return .resourceDeleted id
  | 3 =>
      let id ← getUlid
      let resourceId ← getUlid
      let span ← getSpan
      let blocking ← flag
      return .ruleAdded id resourceId span blocking
  | 4 =>
      let id ← getUlid
      let resourceId ← getUlid
      let span ← getSpan
      let blocking ← flag
      return .ruleUpdated id resourceId span blocking
  | 5 =>
      let id ← getUlid
      let resourceId ← getUlid
      return .ruleRemoved id resourceId
  | 6 =>
      let id ← getUlid
      let resourceId ← getUlid
      let span ← getSpan
      let expiresAt ← getMs
      return .holdPlaced id resourceId span expiresAt
  | 7 =>
      let id ← getUlid
      let resourceId ← getUlid
      return .holdReleased id resourceId
  | 8 =>
      let id ← getUlid
      let resourceId ← getUlid
      let span ← getSpan
      let label ← option getText
      return .bookingConfirmed id resourceId span label
  | 9 =>
      let id ← getUlid
      let resourceId ← getUlid
      return .bookingCancelled id resourceId
  | 10 =>
      let count ← number 8
      let commits ← items getCommit count
      return .holdsCommitted commits
  | _ => failure

end Bincode

/-- The record a payload holds. Bytes after it are ignored. -/
def Event.deserialize (payload : List UInt8) : Option Event := (getEvent.run payload).map (·.1)

end Deltat
