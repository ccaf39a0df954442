import Deltat.Operations

/-! # The parts of a write request

A write request validates its input, finds the resources it touches, locks them, and then
checks under the locks what it may write. The sequential model runs these parts in one go;
here they are separate, so that other work can run between them.
-/

namespace Deltat

open Lib Lib.Outcome Limits Conflict

/-- A request that changes resources which exist, as one write under their locks. Creating
    and adding rules in batches are several requests. -/
inductive Request where
  | addRule (id resourceId : Ulid) (span : ProperSpan) (blocking : Bool)
  | updateRule (id : Ulid) (span : ProperSpan) (blocking : Bool)
  | removeRule (id : Ulid)
  | placeHold (id resourceId : Ulid) (span : ProperSpan) (expiresAt : Ms)
  | batchPlaceHolds (holds : List (Ulid × Ulid × ProperSpan × Ms))
  | removeHold (id : Ulid)
  | commitHolds (commits : List (Ulid × Ulid × Option String))
  | confirmBooking (id resourceId : Ulid) (span : ProperSpan) (label : Option String)
  | batchConfirmBookings (bookings : List (Ulid × Ulid × ProperSpan × Option String))
  | cancelBooking (id : Ulid)
  | updateResource (id : Ulid) (name : Option (Option String)) (capacity : Option UInt32)
      (bufferAfter : Option (Option Ms))

namespace Request

/-- The members `(id, resource_id, span)` of a request for new allocations. -/
def members : Request → List (Ulid × Ulid × Span)
  | placeHold id rid span _ | confirmBooking id rid span _ => [(id, rid, span.1)]
  | batchPlaceHolds holds => holds.map fun h => (h.1, h.2.1, h.2.2.1.1)
  | batchConfirmBookings bookings => bookings.map fun b => (b.1, b.2.1, b.2.2.1.1)
  | _ => []

/-- The ids that must not be in use, in the order they are checked. -/
def claims : Request → List Ulid
  | addRule id _ _ _ | placeHold id _ _ _ | confirmBooking id _ _ _ => [id]
  | batchPlaceHolds holds => holds.map (·.1)
  | batchConfirmBookings bookings => bookings.map (·.1)
  | commitHolds commits => commits.map (·.2.1)
  | updateRule .. | removeRule _ | removeHold _ | cancelBooking _ | updateResource .. => []

/-- Whether the write is applied before it is durable: only writes that take time away are. -/
def early : Request → Bool
  | placeHold .. | batchPlaceHolds _ | commitHolds _ | confirmBooking .. | batchConfirmBookings _ => true
  | _ => false

/-- The validation of a batch of new allocations. -/
def checkMembers (members : List (Ulid × Ulid × Span)) : Except EngineError Unit := do
  rejectIf (members.length > maxBatchSize) (.limitExceeded "batch too large")
  members.forM fun m => validateSpan m.2.2
  rejectRepeats (members.map (·.1))

/-- The checks that need no lock, and the request as it goes on: a hold's expiry is clamped. -/
def prepare (e : Engine) : Request → Except EngineError Request
  | addRule id rid span blocking => do
      validateSpan span.1
      return .addRule id rid span blocking
  | updateRule id span blocking => do
      validateSpan span.1
      return .updateRule id span blocking
  | placeHold id rid span requested => do
      validateSpan span.1
      let expiresAt ← e.holdExpiry requested
      return .placeHold id rid span expiresAt
  | batchPlaceHolds holds => do
      let holds ← holds.mapM fun h => do
        let expiresAt ← e.holdExpiry h.2.2.2
        return (h.1, h.2.1, h.2.2.1, expiresAt)
      checkMembers (batchPlaceHolds holds).members
      return .batchPlaceHolds holds
  | commitHolds commits => do
      rejectIf (commits.length > maxBatchSize) (.limitExceeded "batch too large")
      commits.forM fun c => validateLabel c.2.2
      rejectRepeats (commits.map (·.1))
      rejectRepeats (commits.map (·.2.1))
      return .commitHolds commits
  | confirmBooking id rid span label => do
      validateSpan span.1
      validateLabel label
      return .confirmBooking id rid span label
  | batchConfirmBookings bookings => do
      bookings.forM fun b => validateLabel b.2.2.2
      checkMembers (batchConfirmBookings bookings).members
      return .batchConfirmBookings bookings
  | updateResource id name capacity bufferAfter => do
      Engine.checkUpdate name capacity bufferAfter
      return .updateResource id name capacity bufferAfter
  | removeRule id => .ok (.removeRule id)
  | removeHold id => .ok (.removeHold id)
  | cancelBooking id => .ok (.cancelBooking id)

/-- The resource that the entity index names for an id. -/
def locate (e : Engine) (id : Ulid) : Except EngineError Ulid :=
  match e.store.getResourceForEntity id with
  | some rid => .ok rid
  | none => .error (.notFound id)

/-- The resource of every entry of the request. -/
def targets (e : Engine) : Request → Except EngineError (List Ulid)
  | addRule _ rid _ _ | placeHold _ rid _ _ | confirmBooking _ rid _ _ | updateResource rid _ _ _ => .ok [rid]
  | updateRule id _ _ | removeRule id | removeHold id | cancelBooking id => do
      let rid ← locate e id
      return [rid]
  | batchPlaceHolds holds => .ok (holds.map (·.2.1))
  | batchConfirmBookings bookings => .ok (bookings.map (·.2.1))
  | commitHolds commits => commits.mapM fun c => locate e c.1

section Admission

variable (e : Engine) (guard : Ulid → Option ResourceState) (rules : Ulid → InheritedRules)

/-- The state behind a guard that the request holds. -/
def locked (rid : Ulid) : Except EngineError ResourceState :=
  match guard rid with
  | some rs => .ok rs
  | none => .error (.notFound rid)

/-- A change of one entity, whose kind must match, on the resource it was located on. -/
def admitEntity (id : Ulid) (isKind : IntervalKind → Bool) (record : Ulid → Event) :
    List Ulid → Except EngineError (List Event)
  | [rid] => do
      let rs ← locked guard rid
      let _ ← Engine.findIntervalOfKind rs id isKind
      return [record rid]
  | _ => .error (.notFound id)

/-- A batch of new allocations, with the rules collected for each resource. -/
def admitMembers (members : List (Ulid × Ulid × Span)) : Except EngineError Unit := do
  let rids := Engine.ascending (members.map (·.2.1))
  let guards ← rids.mapM (locked guard)
  rejectIf (guards.any (·.intervals.length ≥ maxIntervalsPerResource))
    (.limitExceeded "too many intervals on resource")
  (rids.zip guards).forM fun entry =>
    e.admitOn entry.2 (rules entry.1) (Engine.membersOn members entry.1)

/-- One entry of a commit: its hold is excluded from its own conflict check. -/
def admitEntry (c : Ulid × Ulid × Option String) (rid : Ulid) : Except EngineError HoldCommit := do
  let rs ← locked guard rid
  let hold ← Engine.findIntervalOfKind rs c.1 IntervalKind.isHold
  checkNoConflictExcluding rs hold.span e.clock (some c.1)
  return ⟨c.1, c.2.1, rid, hold.span, c.2.2⟩

/-- The checks under the locks, but for the ids, and the records the request then writes.
    The rules inherited by each resource were read before, without its lock. -/
def admitRecords (targets : List Ulid) : Request → Except EngineError (List Event)
  | addRule id rid span blocking => do
      let rs ← locked guard rid
      Engine.checkIntervalLimit rs
      return [.ruleAdded id rid span.1 blocking]
  | updateRule id span blocking =>
      admitEntity guard id IntervalKind.isRule (.ruleUpdated id · span.1 blocking) targets
  | removeRule id => admitEntity guard id IntervalKind.isRule (.ruleRemoved id ·) targets
  | removeHold id => admitEntity guard id IntervalKind.isHold (.holdReleased id ·) targets
  | cancelBooking id => admitEntity guard id IntervalKind.isBooking (.bookingCancelled id ·) targets
  | placeHold id rid span expiresAt => do
      admitMembers e guard rules [(id, rid, span.1)]
      return [.holdPlaced id rid span.1 expiresAt]
  | confirmBooking id rid span label => do
      admitMembers e guard rules [(id, rid, span.1)]
      return [.bookingConfirmed id rid span.1 label]
  | batchPlaceHolds holds => do
      admitMembers e guard rules (batchPlaceHolds holds).members
      return holds.map fun h => .holdPlaced h.1 h.2.1 h.2.2.1.1 h.2.2.2
  | batchConfirmBookings bookings => do
      admitMembers e guard rules (batchConfirmBookings bookings).members
      return bookings.map fun b => .bookingConfirmed b.1 b.2.1 b.2.2.1.1 b.2.2.2
  | commitHolds commits => do
      let entries ← (commits.zip targets).mapM fun c => admitEntry e guard c.1 c.2
      return [.holdsCommitted entries]
  | updateResource id name capacity bufferAfter => do
      let _ ← locked guard id
      return [.resourceUpdated id name capacity bufferAfter]

end Admission

/-! ## What the checks leave -/

/-- What `prepare` has checked of the request it passes on. -/
def Checked : Request → Prop
  | addRule _ _ span _ | updateRule _ span _ => validateSpan span.1 = .ok ()
  | placeHold _ _ span expiresAt => validateSpan span.1 = .ok () ∧ i64Min ≤ expiresAt ∧ expiresAt ≤ i64Max
  | batchPlaceHolds holds => (holds.map (·.1)).Nodup ∧
      ∀ h ∈ holds, validateSpan h.2.2.1.1 = .ok () ∧ i64Min ≤ h.2.2.2 ∧ h.2.2.2 ≤ i64Max
  | commitHolds commits => commits.length ≤ maxBatchSize ∧ (∀ c ∈ commits, validateLabel c.2.2 = .ok ()) ∧
      (commits.map (·.1)).Nodup ∧ (commits.map (·.2.1)).Nodup
  | confirmBooking _ _ span label => validateSpan span.1 = .ok () ∧ validateLabel label = .ok ()
  | batchConfirmBookings bookings => (bookings.map (·.1)).Nodup ∧
      ∀ b ∈ bookings, validateSpan b.2.2.1.1 = .ok () ∧ validateLabel b.2.2.2 = .ok ()
  | updateResource _ name capacity bufferAfter => Engine.checkUpdate name capacity bufferAfter = .ok ()
  | removeRule _ | removeHold _ | cancelBooking _ => True

theorem checkMembers_ok {members : List (Ulid × Ulid × Span)} (passed : checkMembers members = .ok ()) :
    (∀ m ∈ members, validateSpan m.2.2 = .ok ()) ∧ (members.map (·.1)).Nodup := by
  obtain ⟨_, _, passed⟩ := bind_ok.mp passed
  obtain ⟨_, spans, nodup⟩ := bind_ok.mp passed
  exact ⟨forM_ok.mp spans, rejectRepeats_ok.mp nodup⟩

theorem prepare_checked {e : Engine} {given r : Request} (passed : given.prepare e = .ok r) : r.Checked := by
  cases given with
  | addRule id rid span blocking =>
      obtain ⟨_, valid, same⟩ := bind_ok.mp passed
      cases same
      exact valid
  | updateRule id span blocking =>
      obtain ⟨_, valid, same⟩ := bind_ok.mp passed
      cases same
      exact valid
  | placeHold id rid span requested =>
      obtain ⟨_, valid, passed⟩ := bind_ok.mp passed
      obtain ⟨_, expiry, same⟩ := bind_ok.mp passed
      cases same
      exact ⟨valid, Engine.holdExpiry_bounds expiry⟩
  | batchPlaceHolds holds =>
      obtain ⟨clamped, expiries, passed⟩ := bind_ok.mp passed
      obtain ⟨_, members, same⟩ := bind_ok.mp passed
      cases same
      obtain ⟨spans, nodup⟩ := checkMembers_ok members
      refine ⟨by simpa [Request.members, Function.comp_def] using nodup, fun h inside => ⟨?_, ?_⟩⟩
      · exact spans _ (List.mem_map_of_mem inside)
      · obtain ⟨_, _, clamp⟩ := mapM_ok_result expiries inside
        obtain ⟨_, expiry, same⟩ := bind_ok.mp clamp
        cases same
        exact Engine.holdExpiry_bounds expiry
  | commitHolds commits =>
      obtain ⟨_, size, passed⟩ := bind_ok.mp passed
      obtain ⟨_, labels, passed⟩ := bind_ok.mp passed
      obtain ⟨_, holds, passed⟩ := bind_ok.mp passed
      obtain ⟨_, bookings, same⟩ := bind_ok.mp passed
      cases same
      exact ⟨Nat.le_of_not_lt (rejectIf_ok.mp size), forM_ok.mp labels, rejectRepeats_ok.mp holds,
        rejectRepeats_ok.mp bookings⟩
  | confirmBooking id rid span label =>
      obtain ⟨_, valid, passed⟩ := bind_ok.mp passed
      obtain ⟨_, labelOk, same⟩ := bind_ok.mp passed
      cases same
      exact ⟨valid, labelOk⟩
  | batchConfirmBookings bookings =>
      obtain ⟨_, labels, passed⟩ := bind_ok.mp passed
      obtain ⟨_, members, same⟩ := bind_ok.mp passed
      cases same
      obtain ⟨spans, nodup⟩ := checkMembers_ok members
      exact ⟨by simpa [Request.members, Function.comp_def] using nodup, fun b inside =>
        ⟨spans _ (List.mem_map_of_mem inside), forM_ok.mp labels b inside⟩⟩
  | updateResource id name capacity bufferAfter =>
      obtain ⟨_, valid, same⟩ := bind_ok.mp passed
      cases same
      exact valid
  | removeRule id | removeHold id | cancelBooking id =>
      cases passed
      trivial

/-- A request as it goes on, with what was checked of it. -/
abbrev Prepared := { r : Request // r.Checked }

def prepared (e : Engine) (given : Request) : Except EngineError Prepared :=
  match passed : given.prepare e with
  | .ok r => .ok ⟨r, prepare_checked passed⟩
  | .error error => .error error

section Admission

variable {e : Engine} {guard : Ulid → Option ResourceState} {rules : Ulid → InheritedRules}
  {targets : List Ulid} {r : Request} {records : List Event}

theorem locked_ok {rid : Ulid} {rs : ResourceState} : locked guard rid = .ok rs ↔ guard rid = some rs := by
  unfold locked
  cases guard rid <;> simp

theorem admitMembers_ok {members : List (Ulid × Ulid × Span)}
    (passed : admitMembers e guard rules members = .ok ()) {m : Ulid × Ulid × Span} (inside : m ∈ members) :
    ∃ rs, guard m.2.1 = some rs := by
  obtain ⟨guards, locks, _⟩ := bind_ok.mp passed
  obtain ⟨rs, _, held⟩ := mapM_ok_mem locks (Engine.mem_ascending.mpr (List.mem_map_of_mem inside))
  exact ⟨rs, locked_ok.mp held⟩

theorem admitEntity_ok {id : Ulid} {isKind : IntervalKind → Bool} {record : Ulid → Event}
    (passed : admitEntity guard id isKind record targets = .ok records) :
    ∃ rid rs i, records = [record rid] ∧ guard rid = some rs ∧
      Engine.findIntervalOfKind rs id isKind = .ok i := by
  unfold admitEntity at passed
  split at passed
  · obtain ⟨rs, held, passed⟩ := bind_ok.mp passed
    obtain ⟨i, found, same⟩ := bind_ok.mp passed
    cases same
    exact ⟨_, rs, i, rfl, locked_ok.mp held, found⟩
  · cases passed

/-- A change that a request may write under its guards: on a guarded resource, removing what
    is there and adding only what the request claims or removes. -/
structure Covers (guard : Ulid → Option ResourceState) (r : Request) (ev : Event) (rid : Ulid) : Prop where
  routed : ev.resourceId? = some rid
  guarded : ∃ rs, guard rid = some rs ∧ ∀ x, ev.removes = some x → x ∈ rs.intervals.map (·.id)
  claimed : ∀ i, ev.adds = some i → i.id ∈ r.claims ∨ ev.removes = some i.id

theorem admitEntry_ok {c : Ulid × Ulid × Option String} {rid : Ulid} {entry : HoldCommit}
    (passed : admitEntry e guard c rid = .ok entry) : ∃ rs hold, guard rid = some rs ∧
      Engine.findIntervalOfKind rs c.1 IntervalKind.isHold = .ok hold ∧
      checkNoConflictExcluding rs hold.span e.clock (some c.1) = .ok () ∧
      entry = ⟨c.1, c.2.1, rid, hold.span, c.2.2⟩ := by
  obtain ⟨rs, held, passed⟩ := bind_ok.mp passed
  obtain ⟨hold, found, passed⟩ := bind_ok.mp passed
  obtain ⟨_, noConflict, same⟩ := bind_ok.mp passed
  cases same
  exact ⟨rs, hold, locked_ok.mp held, found, noConflict, rfl⟩

theorem covers_addition {ev : Event} {rid : Ulid} {rs : ResourceState} {i : Interval}
    (held : guard rid = some rs) (routed : ev.resourceId? = some rid) (adds : ev.adds = some i)
    (removes : ev.removes = none) (claimed : i.id ∈ r.claims) : Covers guard r ev rid where
  routed := routed
  guarded := ⟨rs, held, fun x removed => by rw [removes] at removed; cases removed⟩
  claimed j added := by rw [adds] at added; cases added; exact .inl claimed

theorem covers_entity {ev : Event} {id rid : Ulid} {rs : ResourceState} {isKind : IntervalKind → Bool} {i : Interval}
    (held : guard rid = some rs) (found : Engine.findIntervalOfKind rs id isKind = .ok i)
    (routed : ev.resourceId? = some rid) (removes : ev.removes = some id)
    (adds : ∀ j, ev.adds = some j → j.id = id) : Covers guard r ev rid where
  routed := routed
  guarded := by
    obtain ⟨inside, same, _⟩ := Engine.findIntervalOfKind_mem found
    refine ⟨rs, held, fun x removed => ?_⟩
    rw [removes] at removed
    cases removed
    exact same ▸ List.mem_map_of_mem inside
  claimed j added := .inr (by rw [removes, adds j added])

/-- Every record of an admitted request is a change, and every change is covered. -/
theorem admitRecords_covers (passed : admitRecords e guard rules targets r = .ok records) :
    (∀ ev ∈ records, ev.isChange) ∧ ∀ ev ∈ records.flatMap Event.perResource, ∃ rid, Covers guard r ev rid := by
  have one : ∀ {ev : Event} {rid : Ulid}, ev.isChange → Covers guard r ev rid →
      (∀ b ∈ [ev], b.isChange) ∧ ∀ b ∈ [ev].flatMap Event.perResource, ∃ rid, Covers guard r b rid := by
    intro ev rid change covers
    refine ⟨List.forall_mem_singleton.mpr change, ?_⟩
    rw [List.flatMap_singleton, Event.perResource_single covers.routed]
    exact List.forall_mem_singleton.mpr ⟨rid, covers⟩
  cases r with
  | addRule id rid span blocking =>
      obtain ⟨rs, held, passed⟩ := bind_ok.mp passed
      obtain ⟨_, _, same⟩ := bind_ok.mp passed
      cases same
      exact one rfl (covers_addition (locked_ok.mp held) rfl rfl rfl (List.mem_singleton.mpr rfl))
  | updateRule id span blocking =>
      obtain ⟨rid, rs, i, rfl, held, found⟩ := admitEntity_ok passed
      exact one rfl (covers_entity held found rfl rfl fun _ added => by cases added; rfl)
  | removeRule id | removeHold id | cancelBooking id =>
      obtain ⟨rid, rs, i, rfl, held, found⟩ := admitEntity_ok passed
      exact one rfl (covers_entity held found rfl rfl fun _ added => by cases added)
  | placeHold id rid span expiresAt | confirmBooking id rid span label =>
      obtain ⟨_, members, same⟩ := bind_ok.mp passed
      cases same
      obtain ⟨rs, held⟩ := admitMembers_ok members (List.mem_singleton.mpr rfl)
      exact one rfl (covers_addition held rfl rfl rfl (List.mem_singleton.mpr rfl))
  | batchPlaceHolds members | batchConfirmBookings members =>
      obtain ⟨_, checked, same⟩ := bind_ok.mp passed
      cases same
      refine ⟨List.forall_mem_map.mpr fun _ _ => rfl, ?_⟩
      rw [Engine.perResource_batch fun _ => rfl]
      refine List.forall_mem_map.mpr fun m inside => ?_
      obtain ⟨rs, held⟩ := admitMembers_ok checked (List.mem_map_of_mem inside)
      exact ⟨m.2.1, covers_addition held rfl rfl rfl (List.mem_map_of_mem inside)⟩
  | commitHolds commits =>
      obtain ⟨entries, admitted, same⟩ := bind_ok.mp passed
      cases same
      refine ⟨List.forall_mem_singleton.mpr rfl, fun ev inside => ?_⟩
      rw [List.flatMap_singleton] at inside
      obtain ⟨entry, member, isEvent⟩ := List.mem_flatMap.mp inside
      obtain ⟨c, fromList, entered⟩ := mapM_ok_result admitted member
      obtain ⟨rs, hold, held, found, _, rfl⟩ := admitEntry_ok entered
      simp only [HoldCommit.events, List.mem_cons, List.not_mem_nil, or_false] at isEvent
      rcases isEvent with rfl | rfl
      · exact ⟨c.2, covers_entity held found rfl rfl fun _ added => by cases added⟩
      · refine ⟨c.2, covers_addition held rfl rfl rfl ?_⟩
        exact List.mem_map_of_mem (List.of_mem_zip fromList).1
  | updateResource id name capacity bufferAfter =>
      obtain ⟨rs, held, same⟩ := bind_ok.mp passed
      cases same
      refine @one (.resourceUpdated id name capacity bufferAfter) id rfl ⟨rfl, ?_, ?_⟩
      · exact ⟨rs, locked_ok.mp held, fun x removed => by cases removed⟩
      · exact fun i added => by cases added

theorem zip_fst_sublist {α β : Type} (as : List α) : ∀ bs : List β, ((as.zip bs).map Prod.fst).Sublist as := by
  induction as with
  | nil => exact fun _ => .slnil
  | cons a as ih =>
      intro bs
      cases bs with
      | nil => exact List.nil_sublist _
      | cons b bs => exact (ih bs).cons_cons a

/-- The entries of a commit are those of the request, in order. -/
theorem admitted_entries {commits : List (Ulid × Ulid × Option String)} {entries : List HoldCommit}
    (admitted : (commits.zip targets).mapM (fun c => admitEntry e guard c.1 c.2) = .ok entries) :
    (entries.map fun c => (c.holdId, c.bookingId, c.label)).Sublist commits := by
  have rows : (entries.map fun c => (c.holdId, c.bookingId, c.label)) = (commits.zip targets).map Prod.fst := by
    have each := mapM_ok.mp admitted
    clear admitted
    generalize commits.zip targets = rows at each
    induction each with
    | nil => rfl
    | cons first _ ih =>
        obtain ⟨_, _, _, _, _, rfl⟩ := admitEntry_ok first
        rw [List.map_cons, List.map_cons, ih]
  exact rows ▸ zip_fst_sublist commits targets

/-- The entries of a commit under guards that show the store are admitted there. -/
theorem admittedCommits {commits : List (Ulid × Ulid × Option String)} {entries : List HoldCommit}
    (checked : (commitHolds commits).Checked)
    (shows : ∀ rid rs, guard rid = some rs → e.store.getResource rid = some rs)
    (free : ∀ x ∈ (commitHolds commits).claims, e.store.getResourceForEntity x = none)
    (locates : ∀ {id rid : Ulid} {rs : ResourceState} {isKind : IntervalKind → Bool} {i : Interval},
      guard rid = some rs → Engine.findIntervalOfKind rs id isKind = .ok i →
      e.store.getResourceForEntity id = some rid)
    (admitted : (commits.zip targets).mapM (fun c => admitEntry e guard c.1 c.2) = .ok entries) :
    e.AdmittedCommits entries := by
  obtain ⟨size, labels, holds, bookings⟩ := checked
  have listed := admitted_entries admitted
  have given : ∀ c ∈ entries, (c.holdId, c.bookingId, c.label) ∈ commits :=
    fun c inside => listed.subset (List.mem_map_of_mem inside)
  have entered : ∀ c ∈ entries, ∃ rs hold, guard c.resourceId = some rs ∧
      Engine.findIntervalOfKind rs c.holdId IntervalKind.isHold = .ok hold ∧
      checkNoConflictExcluding rs hold.span e.clock (some c.holdId) = .ok () ∧
      c = ⟨c.holdId, c.bookingId, c.resourceId, hold.span, c.label⟩ := by
    intro c inside
    obtain ⟨row, _, entered⟩ := mapM_ok_result admitted inside
    obtain ⟨rs, hold, held, found, noConflict, rfl⟩ := admitEntry_ok entered
    exact ⟨rs, hold, held, found, noConflict, rfl⟩
  refine ⟨?_, ?_, ?_, fun c inside => labels _ (given c inside), fun c inside => ?_, fun c inside => ?_⟩
  · rw [← List.length_map]
    exact listed.length_le.trans size
  · simpa [Function.comp_def] using (listed.map Prod.fst).nodup holds
  · simpa [Function.comp_def] using (listed.map fun c => c.2.1).nodup bookings
  · obtain ⟨rs, hold, held, found, _, _⟩ := entered c inside
    exact locates held found
  · obtain ⟨rs, hold, held, found, noConflict, same⟩ := entered c inside
    exact ⟨rs, hold, shows _ _ held, found, free _ (List.mem_map_of_mem (given c inside)), noConflict, same⟩

/-- Under guards that show the store, with the claims free, the changes apply together. -/
theorem admitRecords_allApply (consistent : e.store.Consistent) (checked : r.Checked)
    (shows : ∀ rid rs, guard rid = some rs → e.store.getResource rid = some rs)
    (free : ∀ x ∈ r.claims, e.store.getResourceForEntity x = none)
    (passed : admitRecords e guard rules targets r = .ok records) :
    e.store.AllApply (records.flatMap Event.perResource) := by
  have one : ∀ {ev : Event} {rid : Ulid}, ev.Applies e.store rid →
      e.store.AllApply ([ev].flatMap Event.perResource) := by
    intro ev rid applies
    rw [List.flatMap_singleton, Event.perResource_single applies.routed]
    exact Engine.single_allApply applies
  have present : ∀ {rid : Ulid} {rs : ResourceState}, guard rid = some rs → (e.store.getResource rid).isSome :=
    fun held => by rw [shows _ _ held]; rfl
  have locates : ∀ {id rid : Ulid} {rs : ResourceState} {isKind : IntervalKind → Bool} {i : Interval},
      guard rid = some rs → Engine.findIntervalOfKind rs id isKind = .ok i →
      e.store.getResourceForEntity id = some rid := by
    intro id rid rs isKind i held found
    obtain ⟨inside, same, _⟩ := Engine.findIntervalOfKind_mem found
    exact (consistent.entities id rid).mpr ⟨rs, shows _ _ held, same ▸ List.mem_map_of_mem inside⟩
  cases r with
  | addRule id rid span blocking =>
      obtain ⟨rs, held, passed⟩ := bind_ok.mp passed
      obtain ⟨_, _, same⟩ := bind_ok.mp passed
      cases same
      exact one (Engine.applies_addition rfl rfl rfl (fun _ => rfl)
        ⟨validateSpan_admits span.2 checked, Engine.ofBlocking_admitted blocking⟩ (present (locked_ok.mp held))
        (free id (List.mem_singleton.mpr rfl)))
  | updateRule id span blocking =>
      obtain ⟨rid, rs, i, rfl, held, found⟩ := admitEntity_ok passed
      refine @one _ rid ⟨rfl, present held, ?_, ?_, ?_, fun rs wf => wf⟩
      · rintro x ⟨⟩; exact locates held found
      · rintro i ⟨⟩; exact ⟨validateSpan_admits span.2 checked, Engine.ofBlocking_admitted blocking⟩
      · rintro i ⟨⟩; exact .inr rfl
  | removeRule id | removeHold id | cancelBooking id =>
      obtain ⟨rid, rs, i, rfl, held, found⟩ := admitEntity_ok passed
      exact one (Engine.applies_removal rfl rfl rfl (fun _ => rfl) (present held) (locates held found))
  | placeHold id rid span expiresAt =>
      obtain ⟨_, members, same⟩ := bind_ok.mp passed
      cases same
      obtain ⟨rs, held⟩ := admitMembers_ok members (List.mem_singleton.mpr rfl)
      exact one (Engine.applies_holdPlaced span.2 checked.1 checked.2.1 checked.2.2 (present held)
        (free id (List.mem_singleton.mpr rfl)))
  | confirmBooking id rid span label =>
      obtain ⟨_, members, same⟩ := bind_ok.mp passed
      cases same
      obtain ⟨rs, held⟩ := admitMembers_ok members (List.mem_singleton.mpr rfl)
      exact one (Engine.applies_bookingConfirmed span.2 checked.1 checked.2 (present held)
        (free id (List.mem_singleton.mpr rfl)))
  | batchPlaceHolds holds =>
      obtain ⟨_, members, same⟩ := bind_ok.mp passed
      cases same
      rw [Engine.perResource_batch fun _ => rfl]
      refine Engine.batch_allApply checked.1 (fun _ => rfl) fun h inside => ?_
      obtain ⟨rs, held⟩ := admitMembers_ok members (List.mem_map_of_mem inside)
      obtain ⟨valid, lower, upper⟩ := checked.2 h inside
      exact ⟨h.2.1, Engine.applies_holdPlaced h.2.2.1.2 valid lower upper (present held)
        (free h.1 (List.mem_map_of_mem inside))⟩
  | batchConfirmBookings bookings =>
      obtain ⟨_, members, same⟩ := bind_ok.mp passed
      cases same
      rw [Engine.perResource_batch fun _ => rfl]
      refine Engine.batch_allApply checked.1 (fun _ => rfl) fun b inside => ?_
      obtain ⟨rs, held⟩ := admitMembers_ok members (List.mem_map_of_mem inside)
      obtain ⟨valid, labelOk⟩ := checked.2 b inside
      exact ⟨b.2.1, Engine.applies_bookingConfirmed b.2.2.1.2 valid labelOk (present held)
        (free b.1 (List.mem_map_of_mem inside))⟩
  | commitHolds commits =>
      obtain ⟨entries, admitted, same⟩ := bind_ok.mp passed
      cases same
      rw [List.flatMap_singleton]
      exact Engine.commit_allApply consistent (admittedCommits checked shows free locates admitted)
  | updateResource id name capacity bufferAfter =>
      obtain ⟨rs, held, same⟩ := bind_ok.mp passed
      cases same
      exact one (Engine.applies_resourceUpdated checked (Engine.resource_ok.mpr (shows _ _ (locked_ok.mp held))))

end Admission

end Request

end Deltat
