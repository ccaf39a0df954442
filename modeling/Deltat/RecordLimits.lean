import Deltat.CommitHolds
import Deltat.WalRoundTrip

/-! # How large a record can get

Every record that the engine appends carries values its own checks let through. All of them
fit one record of the log, except that nothing bounds a commit's entries and labels together.
-/

namespace Deltat

open Lib Lib.Outcome Bincode Conflict Limits

/-! ## The engine's own limits -/

/-- What the checks of the operations leave of a record. -/
def Event.WithinLimits : Event → Prop
  | resourceCreated _ _ name _ bufferAfter => validateName name = .ok () ∧ validateBuffer bufferAfter = .ok ()
  | resourceUpdated _ name _ bufferAfter =>
      (∀ n, name = some n → validateName n = .ok ()) ∧ ∀ b, bufferAfter = some b → validateBuffer b = .ok ()
  | ruleAdded _ _ span _ | ruleUpdated _ _ span _ => span.Admitted
  | holdPlaced _ _ span expiresAt => span.Admitted ∧ FitsMs expiresAt
  | bookingConfirmed _ _ span label => span.Admitted ∧ validateLabel label = .ok ()
  | holdsCommitted commits => commits.length ≤ maxBatchSize ∧
      ∀ c ∈ commits, c.span.Admitted ∧ validateLabel c.label = .ok ()
  | resourceDeleted _ | ruleRemoved _ _ | holdReleased _ _ | bookingCancelled _ _ => True

theorem Span.Admitted.fits {span : Span} (admitted : span.Admitted) : span.Fits := by
  obtain ⟨proper, lower, upper, _⟩ := admitted
  simp only [Span.Fits, FitsMs, minValidTimestampMs, maxValidTimestampMs, i64Min, i64Max] at *
  lia

namespace Conflict

theorem validateName_ok {name : Option String} :
    validateName name = .ok () ↔ ∀ s, name = some s → s.utf8ByteSize ≤ maxNameLen := by
  unfold validateName
  cases name <;> simp

theorem validateLabel_ok {label : Option String} :
    validateLabel label = .ok () ↔ ∀ s, label = some s → s.utf8ByteSize ≤ maxLabelLen := by
  unfold validateLabel
  cases label <;> simp

end Conflict

theorem Event.WithinLimits.shortTexts {ev : Event} (limits : ev.WithinLimits) : ev.ShortTexts := by
  cases ev with
  | resourceCreated id parentId name capacity bufferAfter => exact validateName_ok.mp limits.1
  | resourceUpdated id name capacity bufferAfter =>
      exact fun s set => validateName_ok.mp (limits.1 (some s) set) s rfl
  | bookingConfirmed id resourceId span label => exact validateLabel_ok.mp limits.2
  | holdsCommitted commits => exact ⟨limits.1, fun c inside => validateLabel_ok.mp (limits.2 c inside).2⟩
  | resourceDeleted | ruleAdded | ruleUpdated | ruleRemoved | holdPlaced | holdReleased | bookingCancelled =>
      trivial

theorem fitsMs_of_buffer {bufferAfter : Option Ms} (valid : validateBuffer bufferAfter = .ok ()) :
    ∀ ms, bufferAfter = some ms → FitsMs ms := by
  intro ms set
  have bounds := validateBuffer_ok.mp valid ms set
  simp only [FitsMs, i64Min, i64Max, maxSpanDurationMs] at *
  lia

theorem fitsText_of_le {s : String} {limit : Nat} (small : limit < 2 ^ 64) (short : s.utf8ByteSize ≤ limit) :
    FitsText s := short.trans_lt small

theorem Event.WithinLimits.representable {ev : Event} (limits : ev.WithinLimits) : ev.Representable := by
  have texts := limits.shortTexts
  cases ev with
  | resourceCreated id parentId name capacity bufferAfter =>
      exact ⟨fun s named => fitsText_of_le (by decide) (texts s named), fitsMs_of_buffer limits.2⟩
  | resourceUpdated id name capacity bufferAfter =>
      exact ⟨fun s named => fitsText_of_le (by decide) (texts s named),
        fun ms set => fitsMs_of_buffer (limits.2 (some ms) set) ms rfl⟩
  | ruleAdded id resourceId span blocking | ruleUpdated id resourceId span blocking => exact limits.fits
  | holdPlaced id resourceId span expiresAt => exact ⟨limits.1.fits, limits.2⟩
  | bookingConfirmed id resourceId span label =>
      exact ⟨limits.1.fits, fun s labelled => fitsText_of_le (by decide) (texts s labelled)⟩
  | holdsCommitted commits =>
      exact ⟨limits.1.trans_lt (by decide), fun c inside => ⟨(limits.2 c inside).1.fits, fun s labelled =>
        fitsText_of_le (by decide) (texts.2 c inside s labelled)⟩⟩
  | resourceDeleted | ruleRemoved | holdReleased | bookingCancelled => trivial

theorem Event.WithinLimits.spansValid {ev : Event} (limits : ev.WithinLimits) : ev.spansValid = true := by
  cases ev with
  | ruleAdded id resourceId span blocking | ruleUpdated id resourceId span blocking =>
      exact decide_eq_true limits.proper
  | holdPlaced id resourceId span expiresAt => exact decide_eq_true limits.1.proper
  | bookingConfirmed id resourceId span label => exact decide_eq_true limits.1.proper
  | holdsCommitted commits =>
      exact List.all_eq_true.mpr fun c inside => decide_eq_true (limits.2 c inside).1.proper
  | resourceCreated | resourceUpdated | resourceDeleted | ruleRemoved | holdReleased | bookingCancelled => rfl

/-- A record within the limits is short, except that a commit's grows with its entries. -/
theorem Event.WithinLimits.short_iff {ev : Event} (limits : ev.WithinLimits) :
    ev.serialize.length ≤ Wal.maxWalRecordBytes ↔ ∀ commits, ev = .holdsCommitted commits →
      12 + (commits.map fun c => 119 + textSize c.label).sum ≤ Wal.maxWalRecordBytes := by
  by_cases commit : ∃ commits, ev = .holdsCommitted commits
  · obtain ⟨commits, rfl⟩ := commit
    simp [Event.length_holdsCommitted]
  · have single : ∀ commits, ev ≠ .holdsCommitted commits := fun commits same => commit ⟨commits, same⟩
    have short := Event.length_serialize_le limits.shortTexts single
    refine iff_of_true (short.trans (by decide)) fun commits same => absurd same (single commits)

/-- No record within the limits overflows its 32-bit length. -/
theorem Event.WithinLimits.counted {ev : Event} (limits : ev.WithinLimits) : ev.serialize.length < 2 ^ 32 := by
  by_cases commit : ∃ commits, ev = .holdsCommitted commits
  · obtain ⟨commits, rfl⟩ := commit
    have texts := limits.shortTexts
    have each : ∀ n ∈ commits.map (fun c => 119 + textSize c.label), n ≤ 119 + (8 + maxLabelLen) :=
      List.forall_mem_map.mpr fun c inside => Nat.add_le_add_left (textSize_le (texts.2 c inside)) 119
    have total := List.sum_le_card_nsmul _ _ each
    rw [List.length_map, smul_eq_mul] at total
    have bounded : commits.length * (119 + (8 + maxLabelLen)) ≤ maxBatchSize * (119 + (8 + maxLabelLen)) :=
      Nat.mul_le_mul_right _ limits.1
    rw [Event.length_holdsCommitted]
    simp only [maxBatchSize, maxLabelLen] at *
    omega
  · have single : ∀ commits, ev ≠ .holdsCommitted commits := fun commits same => commit ⟨commits, same⟩
    exact (Event.length_serialize_le limits.shortTexts single).trans_lt (by decide)

/-! ## What the engine appends -/

namespace Engine

variable {e : Engine}

/-- Every record that the engine admits is within its limits. -/
theorem Admits.withinLimits (h : e.Healthy) {records : List Event} (admits : e.Admits records) :
    ∀ ev ∈ records, ev.WithinLimits := by
  cases admits with
  | create passed =>
      have wf := (checkCreate_ok passed).1
      exact List.forall_mem_singleton.mpr ⟨wf.name, wf.bufferAfter⟩
  | @update id name capacity bufferAfter rs checked present =>
      obtain ⟨_, _, checked⟩ := bind_ok.mp checked
      obtain ⟨_, bufferOk, nameOk⟩ := bind_ok.mp checked
      refine List.forall_mem_singleton.mpr ⟨?_, ?_⟩
      · rintro n rfl
        exact nameOk
      · rintro b rfl
        exact bufferOk
  | addRule proper passed =>
      exact List.forall_mem_singleton.mpr (validateSpan_admits proper (checkAddRule_ok passed).1)
  | updateRule proper passed =>
      exact List.forall_mem_singleton.mpr (validateSpan_admits proper (checkUpdateRule_ok passed).1)
  | placeHold proper passed =>
      obtain ⟨valid, lower, upper, _⟩ := checkHold_ok passed
      exact List.forall_mem_singleton.mpr ⟨validateSpan_admits proper valid, lower, upper⟩
  | confirmBooking proper passed =>
      obtain ⟨valid, label, _⟩ := checkBooking_ok passed
      exact List.forall_mem_singleton.mpr ⟨validateSpan_admits proper valid, label⟩
  | placeHolds bounds batch =>
      refine List.forall_mem_map.mpr fun b member => ?_
      obtain ⟨proper, lower, upper⟩ := bounds b member
      exact ⟨validateSpan_admits proper (batch.spans _ (List.mem_map_of_mem member)), lower, upper⟩
  | confirmBookings valid batch =>
      refine List.forall_mem_map.mpr fun b member => ?_
      obtain ⟨proper, label⟩ := valid b member
      exact ⟨validateSpan_admits proper (batch.spans _ (List.mem_map_of_mem member)), label⟩
  | commit passed =>
      have admitted := (checkCommits_admitted passed).1
      refine List.forall_mem_singleton.mpr ⟨admitted.size, fun c inside => ⟨?_, admitted.labels c inside⟩⟩
      obtain ⟨guard, hold, present, found, _, _, same⟩ := admitted.admitted c inside
      have span : c.span = hold.span := by rw [same]
      rw [span]
      exact ((h.consistent.wellFormed _ guard present).admitted hold (findIntervalOfKind_mem found).1).span
  | delete | removeRule | removeHold | cancelBooking => exact List.forall_mem_singleton.mpr trivial

/-- Every record that recreates a resource is within the limits and short. -/
theorem snapshotEvents_limits (h : e.Healthy) (order : List Ulid) :
    ∀ ev ∈ Compaction.snapshotEvents (order.filterMap e.store.getResource),
      ev.WithinLimits ∧ ev.serialize.length ≤ Wal.maxWalRecordBytes := by
  intro ev inside
  unfold Compaction.snapshotEvents at inside
  obtain ⟨rs, sorted, isEvent⟩ := List.mem_flatMap.mp inside
  obtain ⟨r, _, present⟩ := List.mem_filterMap.mp ((List.perm_insertionSort _ _).subset sorted)
  have wf := h.consistent.wellFormed r rs present
  have limits : ev.WithinLimits ∧ ∀ commits, ev ≠ .holdsCommitted commits := by
    rcases List.mem_cons.mp isEvent with rfl | isInterval
    · exact ⟨⟨wf.name, wf.bufferAfter⟩, fun _ same => by cases same⟩
    · obtain ⟨i, member, rfl⟩ := List.mem_map.mp isInterval
      obtain ⟨span, kind⟩ := wf.admitted i member
      unfold Interval.toEvent
      cases known : i.kind with
      | nonBlocking | blocking => exact ⟨span, fun _ same => by cases same⟩
      | hold expiresAt =>
          rw [known] at kind
          exact ⟨⟨span, kind⟩, fun _ same => by cases same⟩
      | booking label =>
          rw [known] at kind
          exact ⟨⟨span, kind⟩, fun _ same => by cases same⟩
  exact ⟨limits.1, (Event.length_serialize_le limits.1.shortTexts limits.2).trans (by decide)⟩

/-- A record that an operation appends in some run. -/
def Appends (ev : Event) : Prop :=
  ∃ e records, Reachable (fun _ _ => True) e ∧ e.Admits records ∧ ev ∈ records

theorem Appends.withinLimits {ev : Event} (appends : Appends ev) : ev.WithinLimits := by
  obtain ⟨e, records, reached, admits, inside⟩ := appends
  exact admits.withinLimits reached.healthy ev inside

end Engine

namespace Wal

variable {k : Crates}

theorem scan_withinLimits_iff (decodes : k.Decodes) {events : List Event} (limits : ∀ ev ∈ events, ev.WithinLimits) :
    scan k (some (fileOf k events)) = .ok (events, (fileOf k events).length, formatVersion) ↔
      ∀ commits, .holdsCommitted commits ∈ events →
        12 + (commits.map fun c => 119 + textSize c.label).sum ≤ maxWalRecordBytes := by
  rw [scan_fileOf_iff decodes fun ev inside =>
    ⟨(limits ev inside).representable, (limits ev inside).spansValid, (limits ev inside).counted⟩]
  constructor
  · intro short commits inside
    exact (limits _ inside).short_iff.mp (short _ inside) commits rfl
  · intro short ev inside
    exact (limits ev inside).short_iff.mpr fun commits same => short commits (same ▸ inside)

/-- Whatever operations append is read back exactly when no commit among it takes more than
    one record may hold: 12 bytes, 119 for each entry, and eight and its text for each label. -/
theorem appended_read_back_iff (decodes : k.Decodes) {events : List Event}
    (appended : ∀ ev ∈ events, Engine.Appends ev) :
    scan k (some (fileOf k events)) = .ok (events, (fileOf k events).length, formatVersion) ↔
      ∀ commits, .holdsCommitted commits ∈ events →
        12 + (commits.map fun c => 119 + textSize c.label).sum ≤ maxWalRecordBytes :=
  scan_withinLimits_iff decodes fun ev inside => (appended ev inside).withinLimits

/-- The log after the first resource of a tenant. -/
theorem first_resource_read_back :
    scan .bundled (some (fileOf .bundled [.resourceCreated 1 none none 1 none])) =
      .ok ([.resourceCreated 1 none none 1 none], (fileOf .bundled [.resourceCreated 1 none none 1 none]).length, 2) := by
  have created : Engine.Appends (.resourceCreated 1 none none 1 none) :=
    ⟨Engine.start 0 1000, _, .start 0 1000, .create rfl, List.mem_singleton.mpr rfl⟩
  refine (appended_read_back_iff bundled_decodes (List.forall_mem_singleton.mpr created)).mpr fun commits inside => ?_
  cases List.mem_singleton.mp inside

end Wal

/-! ## A commit that is not read back -/

/-- A text of so many bytes. -/
def textOf : Nat → String
  | 0 => ""
  | n + 1 => "x" ++ textOf n

theorem utf8ByteSize_textOf (n : Nat) : (textOf n).utf8ByteSize = n := by
  induction n with
  | zero => rfl
  | succ n ih =>
      have one : "x".utf8ByteSize = 1 := by decide
      rw [textOf, String.utf8ByteSize_append, ih, one, Nat.add_comm]

namespace Engine

theorem slot_valid (i : Nat) : Span.Valid ⟨10 * i, 10 * i + 5⟩ := by
  change 10 * (i : Int) < 10 * i + 5
  omega

def slot (i : Nat) : ProperSpan := ⟨⟨10 * i, 10 * i + 5⟩, slot_valid i⟩

/-- A run that places so many holds on one resource, one behind the other. -/
def heldMany (n : Nat) : Engine :=
  ((start 0 1000).next (.op (.createResource 0 none none 1 none))).next
    (.op (.batchPlaceHolds ((List.range n).map fun i => (Fin.ofNat _ (i + 1), 0, slot i, 100))))

theorem heldMany_reachable (n : Nat) : Reachable (fun _ _ => True) (heldMany n) :=
  .step _ (.step _ (.start 0 1000) trivial trivial) trivial trivial

def manyHeld (n : Nat) : ResourceState :=
  ⟨0, none, none, 1, none, (List.range n).map fun i => ⟨Fin.ofNat _ (i + 1), (slot i).1, .hold 100⟩⟩

set_option maxRecDepth 10000 in
theorem heldMany_store : (heldMany 104).store.getResource 0 = some (manyHeld 104) ∧
    (heldMany 104).store.resourceIds = [0] ∧ (heldMany 104).clock = 0 := by decide +kernel

/-- Every hold of such a resource is alone on its span. -/
theorem manyHeld_alone {n i : Nat} {t : Ms} (covers : (manyHeld n).occupies (slot i).1 t = true) :
    (manyHeld n).othersAt 0 (some (Fin.ofNat _ (i + 1))) t = 0 := by
  refine List.countP_eq_zero.mpr (List.forall_mem_map.mpr fun j _ counted => ?_)
  simp only [Bool.and_eq_true, decide_eq_true_eq] at counted
  obtain ⟨⟨apart, _⟩, covered⟩ := counted
  rw [ResourceState.occupies_iff] at covers covered
  have buffer : (manyHeld n).buffer = 0 := rfl
  simp only [slot, buffer] at covers covered
  have same : j = i := by lia
  exact apart (same ▸ rfl)

/-- The list that commits them with labels of the greatest length. -/
def wideCommits (n : Nat) : List (Ulid × Ulid × Option String) :=
  (List.range n).map fun i => (Fin.ofNat _ (i + 1), Fin.ofNat _ (i + 1001), some (textOf maxLabelLen))

def wideEntries (n : Nat) : List HoldCommit :=
  (List.range n).map fun i =>
    ⟨Fin.ofNat _ (i + 1), Fin.ofNat _ (i + 1001), 0, (slot i).1, some (textOf maxLabelLen)⟩

theorem heldMany_holdOn {i : Nat} (inside : i ∈ List.range 104) :
    (heldMany 104).HoldOn (Fin.ofNat _ (i + 1)) 0 (manyHeld 104) ⟨Fin.ofNat _ (i + 1), (slot i).1, .hold 100⟩ :=
  ⟨heldMany_store.1, List.mem_map_of_mem inside, rfl, rfl⟩

theorem heldMany_unused {i : Nat} (inside : i ∈ List.range 104) :
    (heldMany 104).store.getResourceForEntity (Fin.ofNat _ (i + 1001)) = none := by
  rw [Option.eq_none_iff_forall_ne_some]
  intro q located
  obtain ⟨rs, present, held⟩ := ((heldMany_reachable 104).healthy.consistent.entities _ q).mp located
  have listed : q ∈ (heldMany 104).store.resourceIds := mem_resourceIds.mpr (by rw [present]; rfl)
  rw [heldMany_store.2.1, List.mem_singleton] at listed
  subst listed
  obtain rfl := Option.some.inj (heldMany_store.1.symm.trans present)
  obtain ⟨_, member, same⟩ := List.mem_map.mp held
  obtain ⟨j, inJ, rfl⟩ := List.mem_map.mp member
  have value := congrArg Fin.val same
  rw [List.mem_range] at inside inJ
  simp only [Fin.val_ofNat] at value
  omega

theorem wideCommits_admitted :
    (heldMany 104).checkCommits (wideCommits 104) 0 = .ok ((List.range 104).map fun _ => 0, wideEntries 104) := by
  have h := (heldMany_reachable 104).healthy
  refine checkCommits_ok.mpr ⟨⟨?_, ?_, ?_, ?_, ?_, ?_⟩, ?_⟩
  · rw [wideCommits, List.length_map, List.length_range]
    decide
  · refine List.forall_mem_map.mpr fun i _ => validateLabel_ok.mpr fun s same => ?_
    rw [← Option.some.inj same, utf8ByteSize_textOf]
  · decide +kernel
  · decide +kernel
  · unfold wideCommits
    rw [List.forall₂_map_left_iff, List.forall₂_map_right_iff, List.forall₂_same]
    exact fun i inside => (heldMany_holdOn inside).located h
  · refine List.forall_mem_map.mpr fun i _ => ?_
    rw [heldMany_store.1]
    rfl
  · unfold wideCommits wideEntries
    -- The text itself plays no part from here on.
    generalize textOf maxLabelLen = label
    rw [List.zip_map', List.forall₂_map_left_iff, List.forall₂_map_right_iff, List.forall₂_same]
    intro i inside
    have on := heldMany_holdOn inside
    have capacity : (manyHeld 104).capacity.toNat = 1 := rfl
    have admissible : (heldMany 104).Admissible (Fin.ofNat _ (i + 1)) := by
      refine ⟨0, _, _, on, fun t covers => ?_⟩
      rw [heldMany_store.2.2, manyHeld_alone covers, capacity]
      exact Nat.one_pos
    have recorded : (heldMany 104).Entry (Fin.ofNat _ (i + 1), Fin.ofNat _ (i + 1001), some label)
        ⟨Fin.ofNat _ (i + 1), Fin.ofNat _ (i + 1001), 0, (slot i).1, some label⟩ := ⟨_, _, on, rfl⟩
    have unused := heldMany_unused inside
    have passes := (admitsCommit_iff (c := (Fin.ofNat _ (i + 1), Fin.ofNat _ (i + 1001), some label)) (r := 0) h
      unused).mpr ⟨admissible, recorded, rfl⟩
    exact passes.2

theorem wideEntries_append : Appends (.holdsCommitted (wideEntries 104)) :=
  ⟨heldMany 104, _, heldMany_reachable 104, .commit wideCommits_admitted, List.mem_singleton.mpr rfl⟩

end Engine

namespace Wal

/-- A commit of 104 holds with labels of 10000 bytes, each within its limit, is written and
    cannot be read back. -/
theorem wide_commit_not_read_back :
    Engine.Appends (.holdsCommitted (Engine.wideEntries 104)) ∧
      scan .bundled (some (fileOf .bundled [.holdsCommitted (Engine.wideEntries 104)])) ≠
        .ok ([.holdsCommitted (Engine.wideEntries 104)],
          (fileOf .bundled [.holdsCommitted (Engine.wideEntries 104)]).length, formatVersion) := by
  refine ⟨Engine.wideEntries_append, fun read => ?_⟩
  have short := (scan_withinLimits_iff bundled_decodes
    (List.forall_mem_singleton.mpr Engine.wideEntries_append.withinLimits)).mp read _ (List.mem_singleton.mpr rfl)
  have label : textSize (some (textOf maxLabelLen)) = 10008 := by
    simp only [textSize, Option.map_some, Option.getD_some, utf8ByteSize_textOf, maxLabelLen]
  simp only [Engine.wideEntries, List.map_map, Function.comp_def, label, List.map_const', List.length_range,
    List.sum_replicate, smul_eq_mul, maxWalRecordBytes] at short
  omega

end Wal

end Deltat
