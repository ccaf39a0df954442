import Deltat.Lib.Outcome
import Deltat.WalRoundTrip

/-! # The valid part of a log

One round of the reading loop stops or reads past one record, whatever bytes it meets. So the
valid part of a file is valid by itself, and behind a file that is valid to its end the loop
goes on with whatever is appended.
-/

namespace Deltat

open Lib Lib.Bytes

namespace Wal

variable {k : Crates}

/-- A record that the loop reads past, wherever it stands. -/
structure Reads (k : Crates) (record : List UInt8) (ev : Event) : Prop where
  nonempty : 0 < record.length
  read : ∀ fileLen fuel acc validLen rest, scanFrom k fileLen (fuel + 1) acc validLen (record ++ rest) =
    scanFrom k fileLen fuel (acc ++ [ev]) (validLen + record.length) rest

/-- What one round of the loop can do: stop, or read past one record. -/
theorem scanFrom_cases {fileLen fuel validLen reached : Nat} {acc events : List Event} {rest : List UInt8}
    (read : scanFrom k fileLen (fuel + 1) acc validLen rest = .ok (events, reached)) :
    (events = acc ∧ reached = validLen) ∨ ∃ record ev rest', rest = record ++ rest' ∧ Reads k record ev ∧
      scanFrom k fileLen fuel (acc ++ [ev]) (validLen + record.length) rest' = .ok (events, reached) := by
  have stays : Except.ok (acc, validLen) = (Except.ok (events, reached) : Except IoError (List Event × Nat)) →
      events = acc ∧ reached = validLen := by
    intro same
    cases same
    exact ⟨rfl, rfl⟩
  rw [scanFrom] at read
  split at read
  · exact .inl (stays read)
  next lenBuf afterLen lenRead =>
  obtain ⟨rfl, lenLength⟩ := readExact_some.mp lenRead
  simp only at read
  split at read
  · split at read
    · exact .inl (stays read)
    · cases read
  next within =>
  split at read
  · exact .inl (stays read)
  next payload afterPayload payloadRead =>
  obtain ⟨rfl, payloadLength⟩ := readExact_some.mp payloadRead
  split at read
  · exact .inl (stays read)
  next crcBuf afterCrc crcRead =>
  obtain ⟨rfl, crcLength⟩ := readExact_some.mp crcRead
  split at read
  · split at read
    · exact .inl (stays read)
    · cases read
  next checksum =>
  split at read
  · next ev decoded =>
      split at read
      · next valid =>
          have length : (lenBuf ++ (payload ++ crcBuf)).length = recordFramingBytes + ofLe lenBuf := by
            rw [List.length_append, List.length_append, lenLength, payloadLength, crcLength, recordFramingBytes]
            omega
          refine .inr ⟨lenBuf ++ (payload ++ crcBuf), ev, afterCrc, by simp only [List.append_assoc], ⟨?_, ?_⟩, ?_⟩
          · rw [length, recordFramingBytes]
            omega
          · intro fileLen fuel acc validLen rest
            rw [scanFrom, List.append_assoc, List.append_assoc, readExact_append lenLength]
            simp only [within, ↓reduceIte, readExact_append payloadLength, readExact_append crcLength, checksum,
              decoded, valid, length]
          · rw [length]
            exact read
      · split at read
        · exact .inl (stays read)
        · cases read
  · split at read
    · exact .inl (stays read)
    · cases read

/-- The valid part of a file is valid by itself. -/
theorem scanFrom_valid {fileLen fuel validLen reached : Nat} {acc events : List Event} {rest : List UInt8}
    (read : scanFrom k fileLen fuel acc validLen rest = .ok (events, reached)) :
    validLen ≤ reached ∧ reached ≤ validLen + rest.length ∧ ∀ fileLen' fuel', reached - validLen < fuel' →
      scanFrom k fileLen' fuel' acc validLen (rest.take (reached - validLen)) = .ok (events, reached) := by
  have stops : ∀ fileLen' fuel', 0 < fuel' → scanFrom k fileLen' fuel' acc validLen [] = .ok (acc, validLen) := by
    intro fileLen' fuel' enough
    cases fuel' with
    | zero => cases enough
    | succ fuel' => rfl
  induction fuel generalizing acc validLen rest with
  | zero =>
      cases read
      refine ⟨Nat.le_refl _, Nat.le_add_right _ _, fun fileLen' fuel' enough => ?_⟩
      rw [Nat.sub_self, List.take_zero]
      exact stops fileLen' fuel' (by omega)
  | succ fuel ih =>
      rcases scanFrom_cases read with ⟨rfl, rfl⟩ | ⟨record, ev, rest', rfl, reads, further⟩
      · refine ⟨Nat.le_refl _, Nat.le_add_right _ _, fun fileLen' fuel' enough => ?_⟩
        rw [Nat.sub_self, List.take_zero]
        exact stops fileLen' fuel' (by omega)
      · obtain ⟨behind, within, again⟩ := ih further fun fileLen' fuel' enough => by
          cases fuel' with
          | zero => cases enough
          | succ fuel' => rfl
        rw [List.length_append]
        refine ⟨by omega, by omega, fun fileLen' fuel' enough => ?_⟩
        obtain ⟨fuel', rfl⟩ : ∃ n, fuel' = n + 1 := ⟨fuel' - 1, by omega⟩
        rw [List.take_append, List.take_of_length_le (by omega), reads.read]
        have rest : reached - validLen - record.length = reached - (validLen + record.length) := by omega
        have nonempty := reads.nonempty
        rw [rest]
        exact again fileLen' fuel' (by omega)

/-- Behind a part that is valid to its end the loop goes on. -/
theorem scanFrom_append {fileLen fuel validLen : Nat} {acc events : List Event} {rest : List UInt8}
    (read : scanFrom k fileLen fuel acc validLen rest = .ok (events, validLen + rest.length)) :
    ∃ rounds ≤ rest.length, ∀ fileLen' fuel' tail,
      scanFrom k fileLen' (fuel' + rounds) acc validLen (rest ++ tail) =
        scanFrom k fileLen' fuel' events (validLen + rest.length) tail := by
  induction fuel generalizing acc validLen rest with
  | zero =>
      obtain ⟨rfl, length⟩ := Prod.mk.inj (Except.ok.inj read)
      obtain rfl : rest = [] := List.eq_nil_of_length_eq_zero (by omega)
      exact ⟨0, Nat.le_refl 0, fun _ _ _ => rfl⟩
  | succ fuel ih =>
      rcases scanFrom_cases read with ⟨rfl, length⟩ | ⟨record, ev, rest', rfl, reads, further⟩
      · obtain rfl : rest = [] := List.eq_nil_of_length_eq_zero (by omega)
        exact ⟨0, Nat.le_refl 0, fun _ _ _ => rfl⟩
      · rw [List.length_append, ← Nat.add_assoc] at further ⊢
        obtain ⟨rounds, few, goesOn⟩ := ih further
        have nonempty := reads.nonempty
        refine ⟨rounds + 1, by omega, fun fileLen' fuel' tail => ?_⟩
        rw [List.append_assoc, ← Nat.add_assoc, reads.read]
        exact goesOn fileLen' fuel' tail

/-! ## Clean files -/

/-- A file of the current format that is valid to its end. -/
structure Clean (k : Crates) (file : List UInt8) (events : List Event) : Prop where
  header : header formatVersion <+: file
  scanned : scan k (some file) = .ok (events, file.length, formatVersion)

theorem readHeader_of_header {file : List UInt8} (headed : header formatVersion <+: file) :
    readHeader file = .ok (headerBytes, formatVersion) := by
  obtain ⟨rest, rfl⟩ := headed
  exact readHeader_header (Nat.le_refl _) rest

theorem headerBytes_le {file : List UInt8} (headed : header formatVersion <+: file) : headerBytes ≤ file.length := by
  rw [← length_header formatVersion]
  exact headed.length_le

/-- The valid part of a file of the current format is a clean file. -/
theorem clean_take {file : List UInt8} {events : List Event} {validLen version : Nat}
    (headed : header formatVersion <+: file) (scanned : scan k (some file) = .ok (events, validLen, version)) :
    version = formatVersion ∧ headerBytes ≤ validLen ∧ validLen ≤ file.length ∧ Clean k (file.take validLen) events := by
  have enough := headerBytes_le headed
  rw [scan_of_header (readHeader_of_header headed)] at scanned
  obtain ⟨⟨events', reached⟩, read, same⟩ := Outcome.map_ok.mp scanned
  cases same
  obtain ⟨behind, within, again⟩ := scanFrom_valid read
  rw [List.length_drop] at within
  have stillHeaded : header formatVersion <+: file.take reached := by
    rw [List.prefix_take_iff, length_header]
    exact ⟨headed, behind⟩
  refine ⟨rfl, behind, by omega, stillHeaded, ?_⟩
  rw [scan_of_header (readHeader_of_header stillHeaded), List.drop_take, again _ _ (by
    rw [List.length_take]
    omega), List.length_take, Nat.min_eq_left (by omega)]
  rfl

/-- Behind a clean file the scan goes on. -/
theorem Clean.scan_append {file : List UInt8} {events : List Event} (clean : Clean k file events) (tail : List UInt8) :
    ∃ fuel, tail.length ≤ fuel ∧ scan k (some (file ++ tail)) =
      (scanFrom k (file.length + tail.length) (fuel + 1) events file.length tail).map
        fun read => (read.1, read.2, formatVersion) := by
  have enough := headerBytes_le clean.header
  have scanned := clean.scanned
  rw [scan_of_header (readHeader_of_header clean.header)] at scanned
  obtain ⟨⟨events', reached⟩, read, same⟩ := Outcome.map_ok.mp scanned
  cases same
  have whole : headerBytes + (file.drop headerBytes).length = file.length := by
    rw [List.length_drop]
    omega
  rw [← whole] at read
  obtain ⟨rounds, few, goesOn⟩ := scanFrom_append read
  rw [List.length_drop] at few
  refine ⟨file.length + tail.length - rounds, by omega, ?_⟩
  have fuel : file.length + tail.length + 1 = file.length + tail.length - rounds + 1 + rounds := by omega
  rw [scan_of_header (readHeader_of_header (clean.header.trans (List.prefix_append file tail))), List.length_append,
    fuel, List.drop_append_of_le_length enough, goesOn, whole]

theorem clean_fileOf (decodes : k.Decodes) {events : List Event} (good : ∀ ev ∈ events, Loggable ev) :
    Clean k (fileOf k events) events :=
  ⟨List.prefix_append _ _, scan_fileOf decodes good⟩

/-- Records that are appended to a clean file are read behind it. -/
theorem Clean.scan_records {file : List UInt8} {events : List Event} (clean : Clean k file events)
    (decodes : k.Decodes) {batch : List Event} (good : ∀ ev ∈ batch, Loggable ev) (n : Nat) :
    scan k (some (file ++ (batch.flatMap (encodeEvent k)).take n)) =
      .ok (events ++ Frames.whole (encodeEvent k) batch n,
        file.length + ((Frames.whole (encodeEvent k) batch n).flatMap (encodeEvent k)).length, formatVersion) := by
  obtain ⟨tail, cut, torn⟩ := Frames.take_flatMap (encodeEvent k) batch n
  have goodWhole : ∀ ev ∈ Frames.whole (encodeEvent k) batch n, Loggable ev := fun ev inside =>
    good ev ((Frames.whole_prefix _ _ _).subset inside)
  have few := length_le_flatMap (k := k) (Frames.whole (encodeEvent k) batch n)
  obtain ⟨fuel, enough, scanned⟩ := clean.scan_append ((batch.flatMap (encodeEvent k)).take n)
  rw [cut, List.length_append] at enough
  obtain ⟨fuel, rfl⟩ : ∃ m, fuel = m + (Frames.whole (encodeEvent k) batch n).length :=
    ⟨fuel - (Frames.whole (encodeEvent k) batch n).length, by omega⟩
  rw [scanned, cut, Nat.add_right_comm, scanFrom_records decodes goodWhole]
  rcases torn with rfl | ⟨ev, inside, part, proper⟩
  · rfl
  · rw [scanFrom_torn (good ev inside).short part proper]
    rfl

/-- A clean file stays clean when whole records are appended. -/
theorem Clean.append {file : List UInt8} {events : List Event} (clean : Clean k file events)
    (decodes : k.Decodes) {batch : List Event} (good : ∀ ev ∈ batch, Loggable ev) :
    Clean k (file ++ batch.flatMap (encodeEvent k)) (events ++ batch) := by
  refine ⟨clean.header.trans (List.prefix_append _ _), ?_⟩
  have scanned := clean.scan_records decodes good (batch.flatMap (encodeEvent k)).length
  rwa [List.take_length, Frames.whole_all _ _ (Nat.le_refl _), ← List.length_append] at scanned

end Wal

end Deltat
