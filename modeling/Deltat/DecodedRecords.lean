import Deltat.BincodeRoundTrip
import Deltat.Lib.Decoded

/-! # What a payload can decode to

Whatever bytes a payload holds, an event decoded from it has values of the machine types, and its
own record is no longer than the payload.
-/

namespace Deltat

open Lib.Bytes Lib.Codec Bincode Limits

namespace Bincode

theorem spends_string : Spends getString (fun bytes => (putString bytes).length) fun bytes => bytes.length < 2 ^ 64 := by
  intro bytes
  refine (spends_number 8).bind fun n rest small fits => ?_
  intro taken left read
  obtain ⟨length, spent⟩ := spends_take n rest taken left read
  have width : (256 : Nat) ^ 8 = 2 ^ 64 := by norm_num
  refine ⟨(length.trans_lt small).trans_eq width, ?_⟩
  simp only [putString, List.length_append, length_le] at spent fits ⊢
  omega

theorem spends_text : Spends getText (fun s => (putText s).length) FitsText := by
  intro bytes
  refine spends_string.bind fun taken rest small fits => ?_
  split
  · next s decoded =>
      apply Gives.pure
      unfold String.fromUTF8? at decoded
      split at decoded
      · cases decoded
        next valid =>
          have size : (String.fromUTF8 ⟨taken.toArray⟩ valid).utf8ByteSize = taken.length := rfl
          refine ⟨(size.trans_lt small), ?_⟩
          simp only [putString, List.length_append, length_le, length_putText, size] at fits ⊢
          exact fits
      · cases decoded
  · exact .failure

theorem spends_ulid : Spends getUlid (fun id => (putUlid id).length) fun _ => True := by
  intro bytes
  refine spends_string.bind fun text rest _ fits => ?_
  split
  · split
    · next length =>
        apply Gives.pure
        refine ⟨trivial, ?_⟩
        simp only [putString, List.length_append, length_le, length, length_putUlid] at fits ⊢
        exact fits
    · exact .failure
  · exact .failure

theorem spends_ms : Spends getMs (fun ms => (putMs ms).length) FitsMs := by
  unfold getMs
  apply (spends_number 8).map
  intro n _
  have positive : 0 < 2 ^ 64 := by norm_num
  have lower := Int.le_bmod positive (x := n)
  have upper := Int.bmod_lt positive (x := n)
  refine ⟨⟨?_, ?_⟩, (length_putMs _).le⟩
  · simp only [i64Min]
    norm_num at lower
    exact lower
  · simp only [i64Max]
    norm_num at upper
    lia

theorem spends_span : Spends getSpan (fun span => (putSpan span).length) Span.Fits := by
  intro bytes
  refine spends_ms.bind fun start rest starts first => ?_
  refine spends_ms.bind fun stop rest' stops second => ?_
  apply Gives.pure
  refine ⟨⟨starts, stops⟩, ?_⟩
  simp only [length_putMs, length_putSpan] at first second ⊢
  omega

theorem spends_u32 : Spends getU32 (fun n => (putU32 n).length) fun _ => True :=
  (spends_number 4).map fun _ _ => ⟨trivial, (length_putU32 _).le⟩

theorem spends_commit : Spends getCommit (fun c => (putCommit c).length) HoldCommit.Fits := by
  intro bytes
  refine spends_ulid.bind fun holdId r₁ _ h₁ => ?_
  refine spends_ulid.bind fun bookingId r₂ _ h₂ => ?_
  refine spends_ulid.bind fun resourceId r₃ _ h₃ => ?_
  refine spends_span.bind fun span r₄ spanFits h₄ => ?_
  refine (spends_option spends_text).bind fun label r₅ labelFits h₅ => ?_
  apply Gives.pure
  refine ⟨⟨spanFits, labelFits⟩, ?_⟩
  simp only [putCommit, List.length_append]
  omega

/-- What an event is read from is no shorter than the record that would be written for it. -/
theorem spends_event : Spends getEvent (fun ev => ev.serialize.length) Event.Representable := by
  intro bytes
  refine (spends_number 4).bind fun tag r₀ _ h₀ => ?_
  split
  case h_1 =>
    refine spends_ulid.bind fun id r₁ _ h₁ => ?_
    refine (spends_option spends_ulid).bind fun parentId r₂ _ h₂ => ?_
    refine (spends_option spends_text).bind fun name r₃ nameFits h₃ => ?_
    refine spends_u32.bind fun capacity r₄ _ h₄ => ?_
    refine (spends_option spends_ms).bind fun bufferAfter r₅ bufferFits h₅ => ?_
    apply Gives.pure
    refine ⟨⟨nameFits, bufferFits⟩, ?_⟩
    simp only [Event.serialize, List.length_append, length_le]
    omega
  case h_2 =>
    refine spends_ulid.bind fun id r₁ _ h₁ => ?_
    refine (spends_option (spends_option spends_text)).bind fun name r₂ nameFits h₂ => ?_
    refine (spends_option spends_u32).bind fun capacity r₃ _ h₃ => ?_
    refine (spends_option (spends_option spends_ms)).bind fun bufferAfter r₄ bufferFits h₄ => ?_
    apply Gives.pure
    refine ⟨⟨fun s same => nameFits _ same s rfl, fun ms same => bufferFits _ same ms rfl⟩, ?_⟩
    simp only [Event.serialize, List.length_append, length_le]
    omega
  case h_3 =>
    refine spends_ulid.bind fun id r₁ _ h₁ => ?_
    apply Gives.pure
    refine ⟨trivial, ?_⟩
    simp only [Event.serialize, List.length_append, length_le]
    omega
  case h_4 | h_5 =>
    refine spends_ulid.bind fun id r₁ _ h₁ => ?_
    refine spends_ulid.bind fun resourceId r₂ _ h₂ => ?_
    refine spends_span.bind fun span r₃ spanFits h₃ => ?_
    refine spends_flag.bind fun blocking r₄ _ h₄ => ?_
    apply Gives.pure
    refine ⟨spanFits, ?_⟩
    simp only [Event.serialize, List.length_append, length_le, length_encodeFlag]
    omega
  case h_7 =>
    refine spends_ulid.bind fun id r₁ _ h₁ => ?_
    refine spends_ulid.bind fun resourceId r₂ _ h₂ => ?_
    refine spends_span.bind fun span r₃ spanFits h₃ => ?_
    refine spends_ms.bind fun expiresAt r₄ expiryFits h₄ => ?_
    apply Gives.pure
    refine ⟨⟨spanFits, expiryFits⟩, ?_⟩
    simp only [Event.serialize, List.length_append, length_le]
    omega
  case h_9 =>
    refine spends_ulid.bind fun id r₁ _ h₁ => ?_
    refine spends_ulid.bind fun resourceId r₂ _ h₂ => ?_
    refine spends_span.bind fun span r₃ spanFits h₃ => ?_
    refine (spends_option spends_text).bind fun label r₄ labelFits h₄ => ?_
    apply Gives.pure
    refine ⟨⟨spanFits, labelFits⟩, ?_⟩
    simp only [Event.serialize, List.length_append, length_le]
    omega
  case h_6 | h_8 | h_10 =>
    refine spends_ulid.bind fun id r₁ _ h₁ => ?_
    refine spends_ulid.bind fun resourceId r₂ _ h₂ => ?_
    apply Gives.pure
    refine ⟨trivial, ?_⟩
    simp only [Event.serialize, List.length_append, length_le]
    omega
  case h_11 =>
    refine (spends_number 8).bind fun count r₁ small h₁ => ?_
    refine (spends_items spends_commit count).bind fun commits r₂ all h₂ => ?_
    have width : (256 : Nat) ^ 8 = 2 ^ 64 := by norm_num
    apply Gives.pure
    refine ⟨⟨(all.1.trans_lt small).trans_eq width, all.2⟩, ?_⟩
    simp only [Event.serialize, List.length_append, length_le]
    omega
  case h_12 => exact .failure

end Bincode

/-- What a payload decodes to has values of the machine types, and a record no longer than it. -/
theorem Event.serialize_of_deserialize {payload : List UInt8} {ev : Event} (decoded : Event.deserialize payload = some ev) :
    ev.Representable ∧ ev.serialize.length ≤ payload.length := by
  obtain ⟨⟨_, rest⟩, read, rfl⟩ := Option.map_eq_some_iff.mp decoded
  obtain ⟨fits, spent⟩ := spends_event payload _ rest read
  exact ⟨fits, (Nat.le_add_right _ _).trans spent⟩

end Deltat
