import Deltat.Writes

/-! # What each operation can do

Every operation on a healthy engine either leaves it as it is or performs writes: records
that the engine admits, appended to the log and applied to memory. `Admits` gives, for
each kind of record, the check that let it through.
-/

namespace Deltat

open Lib Lib.Outcome Limits Conflict

namespace Engine

/-- The log writer has not failed and will not, and the store's views agree. -/
structure Healthy (e : Engine) : Prop where
  running : e.failed = false
  noFault : e.flushFault = none
  consistent : e.store.Consistent

theorem start_healthy (clock maxHoldTtlMs : Ms) : (start clock maxHoldTtlMs).Healthy :=
  ⟨rfl, rfl, InMemoryStore.empty_consistent⟩

/-- Why an engine admits records as one write. -/
inductive Admits (e : Engine) : List Event → Prop where
  | create {id : Ulid} {parentId : Option Ulid} {name : Option String} {capacity : UInt32}
      {bufferAfter : Option Ms} :
      e.checkCreate id parentId name capacity bufferAfter = .ok () →
      Admits e [.resourceCreated id parentId name capacity bufferAfter]
  | delete {id : Ulid} {rs : ResourceState} :
      e.checkDelete id = .ok rs → Admits e [.resourceDeleted id]
  | update {id : Ulid} {name : Option (Option String)} {capacity : Option UInt32}
      {bufferAfter : Option (Option Ms)} {rs : ResourceState} :
      checkUpdate name capacity bufferAfter = .ok () → e.resource id = .ok rs →
      Admits e [.resourceUpdated id name capacity bufferAfter]
  | addRule {id rid : Ulid} {span : Span} {blocking : Bool} :
      span.Valid → e.checkAddRule id rid span blocking = .ok () → Admits e [.ruleAdded id rid span blocking]
  | updateRule {id rid : Ulid} {span : Span} {blocking : Bool} :
      span.Valid → e.checkUpdateRule id span blocking = .ok rid →
      Admits e [.ruleUpdated id rid span blocking]
  | removeRule {id rid : Ulid} :
      e.checkRemoval id IntervalKind.isRule = .ok rid → Admits e [.ruleRemoved id rid]
  | removeHold {id rid : Ulid} :
      e.checkRemoval id IntervalKind.isHold = .ok rid → Admits e [.holdReleased id rid]
  | cancelBooking {id rid : Ulid} :
      e.checkRemoval id IntervalKind.isBooking = .ok rid → Admits e [.bookingCancelled id rid]
  | placeHold {id rid : Ulid} {span : Span} {requested expiresAt : Ms} {limit : Nat} :
      span.Valid → e.checkHold id rid span requested limit = .ok expiresAt →
      Admits e [.holdPlaced id rid span expiresAt]
  | confirmBooking {id rid : Ulid} {span : Span} {label : Option String} {limit : Nat} :
      span.Valid → e.checkBooking id rid span label limit = .ok () →
      Admits e [.bookingConfirmed id rid span label]
  | placeHolds {holds : List (Ulid × Ulid × Span × Ms)} :
      (∀ h ∈ holds, h.2.2.1.Valid ∧ i64Min ≤ h.2.2.2 ∧ h.2.2.2 ≤ i64Max) →
      e.AdmittedBatch (holds.map fun h => (h.1, h.2.1, h.2.2.1)) →
      Admits e (holds.map fun h => .holdPlaced h.1 h.2.1 h.2.2.1 h.2.2.2)
  | confirmBookings {bookings : List (Ulid × Ulid × Span × Option String)} :
      (∀ b ∈ bookings, b.2.2.1.Valid ∧ validateLabel b.2.2.2 = .ok ()) →
      e.AdmittedBatch (bookings.map fun b => (b.1, b.2.1, b.2.2.1)) →
      Admits e (bookings.map fun b => .bookingConfirmed b.1 b.2.1 b.2.2.1 b.2.2.2)
  | commit {commits : List (Ulid × Ulid × Option String)} {limit : Nat} {rids : List Ulid}
      {entries : List HoldCommit} :
      e.checkCommits commits limit = .ok (rids, entries) → Admits e [.holdsCommitted entries]

/-- What an admitted write consists of: one create, one delete, or changes of resources. -/
theorem Admits.kinds {e : Engine} {records : List Event} (admits : e.Admits records) :
    (∃ id parentId name capacity bufferAfter, records = [.resourceCreated id parentId name capacity bufferAfter] ∧
      e.checkCreate id parentId name capacity bufferAfter = .ok ()) ∨
    (∃ id rs, records = [.resourceDeleted id] ∧ e.checkDelete id = .ok rs) ∨
    ∀ ev ∈ records, ev.isChange := by
  cases admits with
  | create passed => exact .inl ⟨_, _, _, _, _, rfl, passed⟩
  | delete passed => exact .inr (.inl ⟨_, _, rfl, passed⟩)
  | placeHolds | confirmBookings => exact .inr (.inr (List.forall_mem_map.mpr fun _ _ => rfl))
  | update | addRule | updateRule | removeRule | removeHold | cancelBooking | placeHold | confirmBooking | commit =>
      exact .inr (.inr (List.forall_mem_singleton.mpr rfl))

/-- The engine after a write of these records. -/
structure Wrote (e e' : Engine) (records : List Event) : Prop where
  log : e'.log = e.log ++ records
  clock : e'.clock = e.clock
  table : ∀ r, e'.store.getResource r =
    records.foldl (fun entry ev => ev.stepOn r entry) (e.store.getResource r)
  healthy : e'.Healthy

/-- One admitted write, of records that satisfy `P`. -/
def Write (P : List Event → Prop) (e e' : Engine) : Prop :=
  ∃ records, P records ∧ e.Admits records ∧ e.Wrote e' records

/-- A refusal leaves the engine as it is; success leaves it as it is or performs one write. -/
def Effect {ε : Type} (P : List Event → Prop) (e : Engine) (result : Except ε Unit) (e' : Engine) : Prop :=
  match result with
  | .ok () => e' = e ∨ Write P e e'
  | .error _ => e' = e

section Writing

variable {e : Engine}

theorem exec_queue (running : e.failed = false) (noFault : e.flushFault = none) (records : List Event) :
    exec (queue records) e = (.ok (.ok ()), { e with log := e.log ++ records }) := by
  unfold queue
  rw [exec_bind_ok (exec_get e), running, noFault]
  rfl

theorem exec_walAppend (running : e.failed = false) (noFault : e.flushFault = none) (ev : Event) :
    exec (walAppend ev) e = (.ok (), { e with log := e.log ++ [ev] }) := by
  unfold walAppend
  rw [exec_bind_ok (exec_queue running noFault [ev])]
  rfl

theorem exec_persistAndApply (running : e.failed = false) (noFault : e.flushFault = none) (rid : Ulid) (ev : Event) :
    exec (persistAndApply rid ev) e =
      (.ok (), { e with store := e.store.replayOn rid ev, log := e.log ++ [ev] }) := by
  unfold persistAndApply
  rw [exec_bind_ok (exec_walAppend running noFault ev)]
  rfl

theorem exec_persistEarly (running : e.failed = false) (noFault : e.flushFault = none) (locked : List Ulid)
    (records : List Event) :
    exec (persistEarly locked records) e =
      (.ok (), { e with
        store := locked.foldl (applyChanges (records.flatMap Event.perResource)) e.store
        log := e.log ++ records }) := by
  unfold persistEarly
  rw [exec_bind_ok (exec_queue running noFault records)]
  rfl

/-- A write of change records through the locked resources. -/
theorem wrote_early (h : e.Healthy) {locked : List Ulid} (nodup : locked.Nodup) {records : List Event}
    (changes : ∀ ev ∈ records, ev.isChange)
    (routed : ∀ ev ∈ records.flatMap Event.perResource, ∃ r ∈ locked, ev.resourceId? = some r)
    (all : e.store.AllApply (records.flatMap Event.perResource)) {e' : Engine}
    (store : e'.store = locked.foldl (applyChanges (records.flatMap Event.perResource)) e.store)
    (log : e'.log = e.log ++ records) (clock : e'.clock = e.clock) (running : e'.failed = e.failed)
    (noFault : e'.flushFault = e.flushFault) : e.Wrote e' records where
  log := log
  clock := clock
  table r := by
    rw [store, foldl_applyChanges, InMemoryStore.replayChanges_getResource,
      regroup_filter nodup routed, Event.foldl_stepOn r changes]
  healthy := by
    refine ⟨running.trans h.running, noFault.trans h.noFault, ?_⟩
    rw [store, foldl_applyChanges]
    exact h.consistent.replayChanges (regroup_allApply nodup all)

/-- A write of one single-resource change. -/
theorem wrote_single (h : e.Healthy) {rid : Ulid} {ev : Event} (change : ev.isChange)
    (applies : ev.Applies e.store rid) :
    e.Wrote { e with store := e.store.replayOn rid ev, log := e.log ++ [ev] } [ev] := by
  have step : e.store.replayOn rid ev = e.store.replayChange ev := by
    simp only [InMemoryStore.replayChange, applies.routed]
  have alone := Event.perResource_single applies.routed
  refine ⟨rfl, rfl, fun r => ?_, h.running, h.noFault, ?_⟩
  · rw [step, InMemoryStore.replayChange_getResource applies.routed, List.foldl_cons, List.foldl_nil,
      Event.stepOn_change change, Event.changesOn, alone]
    by_cases same : r = rid
    · subst same
      simp [applies.routed]
    · have other : ev.resourceId? ≠ some r := by
        rw [applies.routed]; exact fun h => same (Option.some.inj h).symm
      simp [same, other]
  · rw [step]
    exact h.consistent.replayChange applies

end Writing

/-! ## Which changes apply -/

section Applying

variable {e : Engine} {id rid : Ulid} {span : Span}

/-- A new interval under an id that nothing carries. -/
theorem applies_addition {ev : Event} {i : Interval} (routed : ev.resourceId? = some rid)
    (adds : ev.adds = some i) (removes : ev.removes = none) (fields : ∀ rs, ev.setFields rs = rs)
    (admitted : i.Admitted) (present : (e.store.getResource rid).isSome)
    (fresh : e.store.getResourceForEntity i.id = none) : ev.Applies e.store rid where
  routed := routed
  present := present
  removes x removed := by rw [removes] at removed; cases removed
  admitted j added := by rw [adds] at added; cases added; exact admitted
  fresh j added := by rw [adds] at added; cases added; exact .inl fresh
  fields rs wf := by rw [fields]; exact wf

/-- The removal of an entity that the index locates on an existing resource. -/
theorem applies_removal {ev : Event} (routed : ev.resourceId? = some rid) (removes : ev.removes = some id)
    (adds : ev.adds = none) (fields : ∀ rs, ev.setFields rs = rs)
    (present : (e.store.getResource rid).isSome)
    (located : e.store.getResourceForEntity id = some rid) : ev.Applies e.store rid where
  routed := routed
  present := present
  removes x removed := by rw [removes] at removed; cases removed; exact located
  admitted j added := by rw [adds] at added; cases added
  fresh j added := by rw [adds] at added; cases added
  fields rs wf := by rw [fields]; exact wf

theorem ofBlocking_admitted (blocking : Bool) : (IntervalKind.ofBlocking blocking).Admitted := by
  cases blocking <;> trivial

theorem applies_holdPlaced {expiresAt : Ms} (proper : span.Valid) (valid : validateSpan span = .ok ())
    (lower : i64Min ≤ expiresAt) (upper : expiresAt ≤ i64Max)
    (present : (e.store.getResource rid).isSome) (fresh : e.store.getResourceForEntity id = none) :
    (Event.holdPlaced id rid span expiresAt).Applies e.store rid :=
  applies_addition rfl rfl rfl (fun _ => rfl) ⟨validateSpan_admits proper valid, lower, upper⟩ present fresh

theorem applies_bookingConfirmed {label : Option String} (proper : span.Valid)
    (valid : validateSpan span = .ok ()) (labelOk : validateLabel label = .ok ())
    (present : (e.store.getResource rid).isSome) (fresh : e.store.getResourceForEntity id = none) :
    (Event.bookingConfirmed id rid span label).Applies e.store rid :=
  applies_addition rfl rfl rfl (fun _ => rfl) ⟨validateSpan_admits proper valid, labelOk⟩ present fresh

theorem applies_ruleAdded {blocking : Bool} (proper : span.Valid)
    (passed : e.checkAddRule id rid span blocking = .ok ()) :
    (Event.ruleAdded id rid span blocking).Applies e.store rid := by
  obtain ⟨valid, fresh, guard, present⟩ := checkAddRule_ok passed
  exact applies_addition rfl rfl rfl (fun _ => rfl)
    ⟨validateSpan_admits proper valid, ofBlocking_admitted blocking⟩ (by rw [present]; rfl) fresh

theorem applies_ruleUpdated {blocking : Bool} (proper : span.Valid)
    (passed : e.checkUpdateRule id span blocking = .ok rid) :
    (Event.ruleUpdated id rid span blocking).Applies e.store rid := by
  obtain ⟨valid, located, guard, _, present, _⟩ := checkUpdateRule_ok passed
  refine ⟨rfl, by rw [present]; rfl, ?_, ?_, ?_, fun rs wf => wf⟩
  · rintro x ⟨⟩; exact located
  · rintro i ⟨⟩; exact ⟨validateSpan_admits proper valid, ofBlocking_admitted blocking⟩
  · rintro i ⟨⟩; exact .inr rfl

theorem applies_checkedRemoval {ev : Event} {isKind : IntervalKind → Bool}
    (passed : e.checkRemoval id isKind = .ok rid) (routed : ev.resourceId? = some rid)
    (removes : ev.removes = some id) (adds : ev.adds = none) (fields : ∀ rs, ev.setFields rs = rs) :
    ev.Applies e.store rid := by
  obtain ⟨located, guard, _, present, _⟩ := checkRemoval_ok passed
  exact applies_removal routed removes adds fields (by rw [present]; rfl) located


theorem applies_resourceUpdated {name : Option (Option String)} {capacity : Option UInt32}
    {bufferAfter : Option (Option Ms)} {rs : ResourceState}
    (checked : checkUpdate name capacity bufferAfter = .ok ()) (present : e.resource id = .ok rs) :
    (Event.resourceUpdated id name capacity bufferAfter).Applies e.store id := by
  refine ⟨rfl, by rw [resource_ok.mp present]; rfl, by rintro x ⟨⟩, by rintro i ⟨⟩, by rintro i ⟨⟩, ?_⟩
  obtain ⟨_, capacityOk, checked⟩ := bind_ok.mp checked
  obtain ⟨_, bufferOk, nameOk⟩ := bind_ok.mp checked
  intro rs wf
  refine ⟨wf.sorted, wf.idsNodup, wf.admitted, ?_, ?_, ?_⟩
  · cases capacity with
    | none => exact wf.capacity
    | some c => exact validateCapacity_ok.mp capacityOk
  · cases bufferAfter with
    | none => exact wf.bufferAfter
    | some b => exact bufferOk
  · cases name with
    | none => exact wf.name
    | some n => exact nameOk

end Applying

/-! ## Batches and commits -/

section Batches

variable {e : Engine}

theorem single_allApply {ev : Event} {rid : Ulid} (applies : ev.Applies e.store rid) :
    e.store.AllApply [ev] :=
  ⟨fun b inside => by rw [List.mem_singleton.mp inside]; exact ⟨rid, applies⟩, List.pairwise_singleton _ _⟩

/-- Additions under distinct ids, one for each member of a batch. -/
theorem batch_allApply {α : Type} {members : List α} {mk : α → Event} {id : α → Ulid}
    (nodup : (members.map id).Nodup) (touches : ∀ m, (mk m).touches = [id m])
    (applies : ∀ m ∈ members, ∃ r, (mk m).Applies e.store r) : e.store.AllApply (members.map mk) where
  applies ev inside := by
    obtain ⟨m, member, rfl⟩ := List.mem_map.mp inside
    exact applies m member
  apart := by
    rw [List.pairwise_map]
    refine (List.pairwise_map.mp nodup).imp fun {a b} distinct x inA inB => ?_
    rw [touches, List.mem_singleton] at inA inB
    exact distinct (inA.symm.trans inB)

theorem perResource_batch {α : Type} {members : List α} {mk : α → Event}
    (single : ∀ m, (mk m).perResource = [mk m]) :
    (members.map mk).flatMap Event.perResource = members.map mk := by
  rw [List.flatMap_map]
  calc members.flatMap (fun m => (mk m).perResource)
      = members.flatMap (fun m => [mk m]) := List.flatMap_congr fun m _ => single m
    _ = members.map mk := List.map_eq_flatMap.symm

/-- The changes of a commit: every hold is released and every booking is new. -/
theorem commit_allApply (consistent : e.store.Consistent) {entries : List HoldCommit} (admitted : e.AdmittedCommits entries) :
    e.store.AllApply (entries.flatMap HoldCommit.events) where
  applies ev inside := by
    obtain ⟨c, member, isEvent⟩ := List.mem_flatMap.mp inside
    obtain ⟨guard, hold, present, found, fresh, _, same⟩ := admitted.admitted c member
    have isSome : (e.store.getResource c.resourceId).isSome := by rw [present]; rfl
    obtain ⟨heldHere, _, _⟩ := findIntervalOfKind_mem found
    have span : c.span = hold.span := by rw [same]
    simp only [HoldCommit.events, List.mem_cons, List.not_mem_nil, or_false] at isEvent
    refine ⟨c.resourceId, ?_⟩
    rcases isEvent with rfl | rfl
    · exact applies_removal rfl rfl rfl (fun _ => rfl) isSome (admitted.located c member)
    · refine applies_addition rfl rfl rfl (fun _ => rfl) ⟨?_, admitted.labels c member⟩ isSome fresh
      rw [span]
      exact ((consistent.wellFormed _ _ present).admitted hold heldHere).span
  apart := by
    have fresh : ∀ c ∈ entries, e.store.getResourceForEntity c.bookingId = none := fun c member => by
      obtain ⟨_, _, _, _, fresh, _⟩ := admitted.admitted c member
      exact fresh
    -- A hold is in the entity index and a booking is not, so no entry's booking is a hold.
    have apart : ∀ c ∈ entries, ∀ d ∈ entries, c.holdId ≠ d.bookingId := by
      intro c inC d inD same
      have located := admitted.located c inC
      rw [same, fresh d inD] at located
      cases located
    have distinct := (List.pairwise_map.mp admitted.holdsNodup).and (List.pairwise_map.mp admitted.bookingsNodup)
    refine List.pairwise_flatMap.mpr ⟨fun c member => ?_, ?_⟩
    · simpa [HoldCommit.events, Event.Independent, Event.touches, Event.removes, Event.adds] using
        Ne.symm (apart c member c member)
    · refine distinct.imp_of_mem fun {c d} inC inD both a onC b onD => ?_
      obtain ⟨holds, bookings⟩ := both
      simp only [HoldCommit.events, List.mem_cons, List.not_mem_nil, or_false] at onC onD
      intro x inA inB
      rcases onC with rfl | rfl <;> rcases onD with rfl | rfl <;>
        simp only [Event.touches, Event.removes, Event.adds, Option.toList_some, Option.toList_none,
          Option.map_some, Option.map_none, List.nil_append, List.append_nil, List.mem_singleton] at inA inB
      · exact holds (inA.symm.trans inB)
      · exact apart c inC d inD (inA.symm.trans inB)
      · exact apart d inD c inC (inB.symm.trans inA)
      · exact bookings (inA.symm.trans inB)

/-- The change records of an admitted write apply to the store and are independent. -/
theorem Admits.allApply (h : e.Healthy) {records : List Event} (admits : e.Admits records)
    (changes : ∀ ev ∈ records, ev.isChange) : e.store.AllApply (records.flatMap Event.perResource) := by
  have one : ∀ {ev : Event} {rid : Ulid}, ev.Applies e.store rid →
      e.store.AllApply ([ev].flatMap Event.perResource) := by
    intro ev rid applies
    rw [List.flatMap_singleton, Event.perResource_single applies.routed]
    exact single_allApply applies
  cases admits with
  | create _ => cases changes _ List.mem_cons_self
  | delete _ => cases changes _ List.mem_cons_self
  | update checked present => exact one (applies_resourceUpdated checked present)
  | addRule proper passed => exact one (applies_ruleAdded proper passed)
  | updateRule proper passed => exact one (applies_ruleUpdated proper passed)
  | removeRule passed => exact one (applies_checkedRemoval passed rfl rfl rfl fun _ => rfl)
  | removeHold passed => exact one (applies_checkedRemoval passed rfl rfl rfl fun _ => rfl)
  | cancelBooking passed => exact one (applies_checkedRemoval passed rfl rfl rfl fun _ => rfl)
  | placeHold proper passed =>
      obtain ⟨valid, lower, upper, fresh, guard, present, _⟩ := checkHold_ok passed
      exact one (applies_holdPlaced proper valid lower upper (by rw [present]; rfl) fresh)
  | confirmBooking proper passed =>
      obtain ⟨valid, labelOk, fresh, guard, present, _⟩ := checkBooking_ok passed
      exact one (applies_bookingConfirmed proper valid labelOk (by rw [present]; rfl) fresh)
  | @placeHolds holds bounds batch =>
      have nodup := batch.idsNodup
      rw [List.map_map] at nodup
      rw [perResource_batch fun _ => rfl]
      refine batch_allApply nodup (fun _ => rfl) fun b member => ?_
      have inBatch : (b.1, b.2.1, b.2.2.1) ∈ holds.map fun b => (b.1, b.2.1, b.2.2.1) :=
        List.mem_map_of_mem member
      obtain ⟨guard, present, _⟩ := batch.admitted _ inBatch
      obtain ⟨proper, lower, upper⟩ := bounds b member
      exact ⟨b.2.1, applies_holdPlaced proper (batch.spans _ inBatch) lower upper (by rw [present]; rfl)
        (batch.fresh _ inBatch)⟩
  | @confirmBookings bookings valid batch =>
      have nodup := batch.idsNodup
      rw [List.map_map] at nodup
      rw [perResource_batch fun _ => rfl]
      refine batch_allApply nodup (fun _ => rfl) fun b member => ?_
      have inBatch : (b.1, b.2.1, b.2.2.1) ∈ bookings.map fun b => (b.1, b.2.1, b.2.2.1) :=
        List.mem_map_of_mem member
      obtain ⟨guard, present, _⟩ := batch.admitted _ inBatch
      exact ⟨b.2.1, applies_bookingConfirmed (valid b member).1 (batch.spans _ inBatch) (valid b member).2
        (by rw [present]; rfl) (batch.fresh _ inBatch)⟩
  | commit passed =>
      rw [List.flatMap_singleton]
      exact commit_allApply h.consistent (checkCommits_admitted passed).1

end Batches

/-! ## The operations -/

section Effects

variable {e : Engine} {P : List Event → Prop}

/-- A refusal before anything is written. -/
theorem effect_check {ε α : Type} {c : Except ε α} {f : α → ExceptT ε (StateM Engine) Unit}
    (passed : ∀ a, c = .ok a → Ends (f a) e (Effect P e)) : Ends (liftM c >>= f) e (Effect P e) :=
  Ends.check (fun _ _ => rfl) passed

theorem effect_single (h : e.Healthy) {rid : Ulid} {ev : Event} (change : ev.isChange)
    (routed : ev.resourceId? = some rid) (admits : e.Admits [ev]) (wanted : P [ev]) :
    Ends (persistAndApply rid ev) e (Effect P e) := by
  have all := admits.allApply h (by simpa using change)
  rw [List.flatMap_singleton, Event.perResource_single routed] at all
  obtain ⟨r, applies⟩ := all.applies ev (List.mem_singleton.mpr rfl)
  obtain rfl : r = rid := Option.some.inj (applies.routed.symm.trans routed)
  unfold Ends
  rw [exec_persistAndApply h.running h.noFault]
  exact .inr ⟨[ev], wanted, admits, wrote_single h change applies⟩

/-- The tail of an operation that applies its records before they are durable. The
    placement of holds has moved the reaper's watermark by then. -/
theorem effect_early (h : e.Healthy) {resources : List Ulid} {records : List Event}
    (changes : ∀ ev ∈ records, ev.isChange)
    (routed : ∀ ev ∈ records.flatMap Event.perResource, ∃ r ∈ resources, ev.resourceId? = some r)
    (admits : e.Admits records) (wanted : P records) {watched : Engine} (store : watched.store = e.store)
    (log : watched.log = e.log) (clock : watched.clock = e.clock) (running : watched.failed = e.failed)
    (noFault : watched.flushFault = e.flushFault) :
    Ends (persistEarly (ascending resources) records) watched (Effect P e) := by
  have healthy : watched.Healthy :=
    ⟨running.trans h.running, noFault.trans h.noFault, store ▸ h.consistent⟩
  unfold Ends
  rw [exec_persistEarly healthy.running healthy.noFault]
  refine .inr ⟨records, wanted, admits, wrote_early h (ascending_nodup resources) changes ?_
    (admits.allApply h changes) ?_ ?_ clock running noFault⟩
  · intro ev inside
    obtain ⟨r, member, onResource⟩ := routed ev inside
    exact ⟨r, mem_ascending.mpr member, onResource⟩
  · simp only [store]
  · simp only [log]

/-- The same tail for one record on one resource. -/
theorem effect_early_one (h : e.Healthy) {rid : Ulid} {ev : Event} (change : ev.isChange)
    (routed : ev.resourceId? = some rid) (admits : e.Admits [ev]) (wanted : P [ev])
    {watched : Engine} (store : watched.store = e.store) (log : watched.log = e.log)
    (clock : watched.clock = e.clock) (running : watched.failed = e.failed)
    (noFault : watched.flushFault = e.flushFault) :
    Ends (persistEarly [rid] [ev]) watched (Effect P e) := by
  have locked : ascending [rid] = [rid] := by simp [ascending]
  rw [← locked]
  refine effect_early h (by simpa using change) ?_ admits wanted store log clock running noFault
  rw [List.flatMap_singleton, Event.perResource_single routed]
  simpa using routed

/-- The same tail for a batch of new allocations. -/
theorem effect_batch (h : e.Healthy) {α : Type} {members : List α} {mk : α → Event} {rid : α → Ulid}
    (change : ∀ m, (mk m).isChange) (routed : ∀ m, (mk m).resourceId? = some (rid m))
    (admits : e.Admits (members.map mk)) (wanted : P (members.map mk)) {watched : Engine}
    (store : watched.store = e.store) (log : watched.log = e.log) (clock : watched.clock = e.clock)
    (running : watched.failed = e.failed) (noFault : watched.flushFault = e.flushFault) :
    Ends (persistEarly (ascending (members.map rid)) (members.map mk)) watched (Effect P e) := by
  refine effect_early h ?_ ?_ admits wanted store log clock running noFault
  · intro ev inside
    obtain ⟨m, _, rfl⟩ := List.mem_map.mp inside
    exact change m
  · rw [perResource_batch fun m => Event.perResource_single (routed m)]
    intro ev inside
    obtain ⟨m, member, rfl⟩ := List.mem_map.mp inside
    exact ⟨rid m, List.mem_map_of_mem member, routed m⟩

theorem exec_createResource (running : e.failed = false) (noFault : e.flushFault = none) {id : Ulid}
    {parentId : Option Ulid} {name : Option String} {capacity : UInt32} {bufferAfter : Option Ms}
    (passed : e.checkCreate id parentId name capacity bufferAfter = .ok ()) :
    exec (createResource id parentId name capacity bufferAfter) e =
      (.ok (), { e with
        store := e.store.create id parentId name capacity bufferAfter
        log := e.log ++ [.resourceCreated id parentId name capacity bufferAfter] }) := by
  unfold createResource
  rw [exec_bind_ok (exec_get e), passed, exec_bind_ok (exec_check _ _),
    exec_bind_ok (exec_walAppend running noFault _)]
  cases parentId <;> rfl

theorem effect_createResource (h : e.Healthy) (id : Ulid) (parentId : Option Ulid) (name : Option String)
    (capacity : UInt32) (bufferAfter : Option Ms) :
    Ends (createResource id parentId name capacity bufferAfter) e
      (Effect (· = [.resourceCreated id parentId name capacity bufferAfter]) e) := by
  cases checked : e.checkCreate id parentId name capacity bufferAfter with
  | error error =>
      refine Ends.get (effect_check fun _ passed => ?_)
      rw [checked] at passed
      cases passed
  | ok passed =>
      unfold Ends
      rw [exec_createResource h.running h.noFault checked]
      obtain ⟨wf, absent, parent⟩ := checkCreate_ok checked
      refine .inr ⟨_, rfl, .create checked, rfl, rfl, fun r => ?_, h.running, h.noFault,
        h.consistent.create wf absent parent⟩
      rw [InMemoryStore.create_getResource, List.foldl_cons, List.foldl_nil]
      simp only [Event.stepOn, eq_comm]

theorem exec_deleteResource (running : e.failed = false) (noFault : e.flushFault = none) {id : Ulid}
    {rs : ResourceState} (passed : e.checkDelete id = .ok rs) :
    exec (deleteResource id) e =
      (.ok (), { e with store := e.store.delete rs id, log := e.log ++ [.resourceDeleted id] }) := by
  have started : exec (deleteResource id) e =
      exec (do
        let rs ← liftM (e.checkDelete id)
        modifyStore (·.unlink rs id)
        walAppend (.resourceDeleted id)
        modifyStore (·.removeResource id)) e := rfl
  have unlinked : exec (modifyStore (·.unlink rs id)) e =
      (.ok (), { e with store := e.store.unlink rs id }) := rfl
  have appended := exec_walAppend (e := { e with store := e.store.unlink rs id }) running noFault
    (.resourceDeleted id)
  rw [started, passed, exec_bind_ok (exec_check _ _), exec_bind_ok unlinked, exec_bind_ok appended]
  rfl

theorem effect_deleteResource (h : e.Healthy) (id : Ulid) :
    Ends (deleteResource id) e (Effect (· = [.resourceDeleted id]) e) := by
  cases checked : e.checkDelete id with
  | error error =>
      refine Ends.get (effect_check fun _ passed => ?_)
      rw [checked] at passed
      cases passed
  | ok rs =>
      unfold Ends
      rw [exec_deleteResource h.running h.noFault checked]
      obtain ⟨present, childless⟩ := checkDelete_ok checked
      refine .inr ⟨_, rfl, .delete checked, rfl, rfl, fun r => ?_, h.running, h.noFault,
        h.consistent.delete present childless⟩
      rw [InMemoryStore.delete_getResource, List.foldl_cons, List.foldl_nil]
      simp only [Event.stepOn, eq_comm]

theorem effect_updateResource (h : e.Healthy) (id : Ulid) (name : Option (Option String))
    (capacity : Option UInt32) (bufferAfter : Option (Option Ms)) :
    Ends (updateResource id name capacity bufferAfter) e
      (Effect (· = [.resourceUpdated id name capacity bufferAfter]) e) :=
  effect_check fun _ checked => Ends.get (effect_check fun _ present =>
    effect_single h rfl rfl (.update checked present) rfl)

theorem effect_addRule (h : e.Healthy) (id rid : Ulid) {span : Span} (proper : span.Valid) (blocking : Bool) :
    Ends (addRule id rid span blocking) e (Effect (· = [.ruleAdded id rid span blocking]) e) :=
  Ends.get (effect_check fun _ passed => effect_single h rfl rfl (.addRule proper passed) rfl)

theorem effect_updateRule (h : e.Healthy) (id : Ulid) {span : Span} (proper : span.Valid) (blocking : Bool) :
    Ends (updateRule id span blocking) e (Effect (fun recs => ∃ rid, recs = [.ruleUpdated id rid span blocking]) e) :=
  Ends.get (effect_check fun rid passed =>
    effect_single h rfl rfl (.updateRule proper passed) ⟨rid, rfl⟩)

theorem effect_removeRule (h : e.Healthy) (id : Ulid) : Ends (removeRule id) e
    (Effect (fun recs => ∃ rid, recs = [.ruleRemoved id rid]) e) :=
  Ends.get (effect_check fun rid passed => effect_single h rfl rfl (.removeRule passed) ⟨rid, rfl⟩)

theorem effect_removeHold (h : e.Healthy) (id : Ulid) : Ends (removeHold id) e
    (Effect (fun recs => ∃ rid, recs = [.holdReleased id rid]) e) :=
  Ends.get (effect_check fun rid passed => effect_single h rfl rfl (.removeHold passed) ⟨rid, rfl⟩)

theorem effect_cancelBooking (h : e.Healthy) (id : Ulid) : Ends (cancelBooking id) e
    (Effect (fun recs => ∃ rid, recs = [.bookingCancelled id rid]) e) :=
  Ends.get (effect_check fun rid passed => effect_single h rfl rfl (.cancelBooking passed) ⟨rid, rfl⟩)

theorem ends_adapt {ε ε' : Type} {g : ε → ε'} {x : ExceptT ε (StateM Engine) Unit} {at' : Engine}
    (h : Ends x at' (Effect P e)) : Ends (ExceptT.adapt g x) at' (Effect P e) := by
  unfold Ends at h ⊢
  rw [exec_adapt]
  cases outcome : exec x at' with
  | mk result e' =>
      rw [outcome] at h
      cases result with
      | error error => exact h
      | ok u => exact h

theorem effect_placeHold (h : e.Healthy) (id rid : Ulid) {span : Span} (proper : span.Valid)
    (expiresAt : Ms) (limit : Nat) :
    Ends (placeHoldOffering id rid span expiresAt limit) e
      (Effect (fun recs => ∃ expiresAt, recs = [.holdPlaced id rid span expiresAt]) e) :=
  Ends.get (effect_check fun clamped passed => Ends.step rfl (ends_adapt
    (effect_early_one h rfl rfl (.placeHold proper passed) ⟨clamped, rfl⟩ rfl rfl rfl rfl rfl)))

theorem effect_confirmBooking (h : e.Healthy) (id rid : Ulid) {span : Span} (proper : span.Valid)
    (label : Option String) (limit : Nat) :
    Ends (confirmBookingOffering id rid span label limit) e
      (Effect (· = [.bookingConfirmed id rid span label]) e) :=
  Ends.get (effect_check fun _ passed => ends_adapt
    (effect_early_one (P := (· = [.bookingConfirmed id rid span label])) h rfl rfl
      (.confirmBooking proper passed) rfl rfl rfl rfl rfl rfl))

theorem effect_commitHolds (h : e.Healthy) (commits : List (Ulid × Ulid × Option String)) (limit : Nat) :
    Ends (commitHoldsOffering commits limit) e (Effect (fun recs => ∃ entries,
      recs = [.holdsCommitted entries] ∧ entries.map (fun c => (c.holdId, c.bookingId, c.label)) = commits) e) := by
  unfold commitHoldsOffering
  split
  · exact .inl rfl
  · refine Ends.get (effect_check fun ⟨rids, entries⟩ passed => ends_adapt ?_)
    obtain ⟨_, given, resources⟩ := checkCommits_admitted passed
    refine effect_early h (by simp [Event.isChange]) ?_ (.commit passed) ⟨entries, rfl, given⟩
      rfl rfl rfl rfl rfl
    rw [List.flatMap_singleton]
    intro ev inside
    obtain ⟨c, member, isEvent⟩ := List.mem_flatMap.mp inside
    simp only [HoldCommit.events, List.mem_cons, List.not_mem_nil, or_false] at isEvent
    exact ⟨c.resourceId, resources ▸ List.mem_map_of_mem member, by rcases isEvent with rfl | rfl <;> rfl⟩

theorem effect_batchConfirmBookings (h : e.Healthy) {bookings : List (Ulid × Ulid × Span × Option String)}
    (proper : ∀ b ∈ bookings, b.2.2.1.Valid) : Ends (batchConfirmBookings bookings) e
      (Effect (· = bookings.map fun b => .bookingConfirmed b.1 b.2.1 b.2.2.1 b.2.2.2) e) := by
  unfold batchConfirmBookings
  split
  · exact .inl rfl
  · refine Ends.get (effect_check fun _ passed => ?_)
    obtain ⟨_, labels, admitted⟩ := bind_ok.mp passed
    have labels := forM_ok.mp labels
    exact effect_batch (P := (· = bookings.map fun b => .bookingConfirmed b.1 b.2.1 b.2.2.1 b.2.2.2)) h
      (fun _ => rfl) (fun _ => rfl)
      (.confirmBookings (fun b member => ⟨proper b member, labels b member⟩) (admitBatch_ok admitted))
      rfl rfl rfl rfl rfl rfl

/-- What clamping the expiries of a batch leaves of its members. -/
theorem holdExpiries_ok {holds clamped : List (Ulid × Ulid × Span × Ms)}
    (passed : e.holdExpiries holds = .ok clamped) :
    ∀ h ∈ clamped, (∃ g ∈ holds, g.2.2.1 = h.2.2.1) ∧ i64Min ≤ h.2.2.2 ∧ h.2.2.2 ≤ i64Max := by
  have related := mapM_ok.mp passed
  clear passed
  induction related with
  | nil => intro h inside; cases inside
  | cons first _ ih =>
      intro h inside
      rcases List.mem_cons.mp inside with rfl | later
      · obtain ⟨expiresAt, expiry, same⟩ := bind_ok.mp first
        cases same
        exact ⟨⟨_, List.mem_cons_self, rfl⟩, holdExpiry_bounds expiry⟩
      · obtain ⟨⟨g, member, same⟩, bounds⟩ := ih h later
        exact ⟨⟨g, List.mem_cons_of_mem _ member, same⟩, bounds⟩

theorem effect_batchPlaceHolds (h : e.Healthy) {holds : List (Ulid × Ulid × Span × Ms)}
    (proper : ∀ b ∈ holds, b.2.2.1.Valid) : Ends (batchPlaceHolds holds) e
      (Effect (fun recs => ∃ clamped : List (Ulid × Ulid × Span × Ms),
        recs = clamped.map fun h => .holdPlaced h.1 h.2.1 h.2.2.1 h.2.2.2) e) := by
  refine Ends.get (effect_check fun clamped expiries => ?_)
  have bounds := holdExpiries_ok expiries
  split
  · exact .inl rfl
  · refine Ends.get (effect_check fun _ admitted => Ends.step rfl ?_)
    have valid : ∀ b ∈ clamped, b.2.2.1.Valid := by
      intro b member
      obtain ⟨⟨g, given, same⟩, _⟩ := bounds b member
      exact same ▸ proper g given
    exact effect_batch h (fun _ => rfl) (fun _ => rfl)
      (.placeHolds (fun b member => ⟨valid b member, (bounds b member).2⟩) (admitBatch_ok admitted))
      ⟨clamped, rfl⟩ rfl rfl rfl rfl rfl

end Effects

end Engine

/-! ## Runs -/

/-- A span as the constructor builds it. -/
abbrev ProperSpan := { s : Span // s.Valid }

/-- An engine operation with its arguments. -/
inductive Op where
  | createResource (id : Ulid) (parentId : Option Ulid) (name : Option String) (capacity : UInt32)
      (bufferAfter : Option Ms)
  | batchCreateResources (resources : List (Ulid × Option Ulid × Option String × UInt32 × Option Ms))
  | deleteResource (id : Ulid)
  | updateResource (id : Ulid) (name : Option (Option String)) (capacity : Option UInt32)
      (bufferAfter : Option (Option Ms))
  | addRule (id resourceId : Ulid) (span : ProperSpan) (blocking : Bool)
  | batchAddRules (rules : List (Ulid × Ulid × ProperSpan × Bool))
  | updateRule (id : Ulid) (span : ProperSpan) (blocking : Bool)
  | removeRule (id : Ulid)
  | placeHold (id resourceId : Ulid) (span : ProperSpan) (expiresAt : Ms) (offerLimit : Nat)
  | batchPlaceHolds (holds : List (Ulid × Ulid × ProperSpan × Ms))
  | releaseHold (id : Ulid)
  | expireHold (id : Ulid)
  | commitHolds (commits : List (Ulid × Ulid × Option String)) (offerLimit : Nat)
  | confirmBooking (id resourceId : Ulid) (span : ProperSpan) (label : Option String) (offerLimit : Nat)
  | batchConfirmBookings (bookings : List (Ulid × Ulid × ProperSpan × Option String))
  | cancelBooking (id : Ulid)

namespace Op

open Engine in
/-- The engine operation. The plain allocations are those with offer limit 0. -/
def run : Op → EngineM Unit
  | createResource id parentId name capacity bufferAfter =>
      Engine.createResource id parentId name capacity bufferAfter
  | batchCreateResources resources => Engine.batchCreateResources resources
  | deleteResource id => Engine.deleteResource id
  | updateResource id name capacity bufferAfter => Engine.updateResource id name capacity bufferAfter
  | addRule id resourceId span blocking => Engine.addRule id resourceId span.1 blocking
  | batchAddRules rules => Engine.batchAddRules (rules.map fun r => (r.1, r.2.1, r.2.2.1.1, r.2.2.2))
  | updateRule id span blocking => Engine.updateRule id span.1 blocking
  | removeRule id => Engine.removeRule id
  | placeHold id resourceId span expiresAt offerLimit =>
      .ofOffer (placeHoldOffering id resourceId span.1 expiresAt offerLimit)
  | batchPlaceHolds holds => Engine.batchPlaceHolds (holds.map fun h => (h.1, h.2.1, h.2.2.1.1, h.2.2.2))
  | releaseHold id => Engine.releaseHold id
  | expireHold id => Engine.expireHold id
  | commitHolds commits offerLimit => .ofOffer (commitHoldsOffering commits offerLimit)
  | confirmBooking id resourceId span label offerLimit =>
      .ofOffer (confirmBookingOffering id resourceId span.1 label offerLimit)
  | batchConfirmBookings bookings =>
      Engine.batchConfirmBookings (bookings.map fun b => (b.1, b.2.1, b.2.2.1.1, b.2.2.2))
  | cancelBooking id => Engine.cancelBooking id

/-- The records that one write of the operation may consist of. -/
def Writes : Op → List Event → Prop
  | createResource id parentId name capacity bufferAfter, recs =>
      recs = [.resourceCreated id parentId name capacity bufferAfter]
  | batchCreateResources resources, recs =>
      ∃ r ∈ resources, recs = [.resourceCreated r.1 r.2.1 r.2.2.1 r.2.2.2.1 r.2.2.2.2]
  | deleteResource id, recs => recs = [.resourceDeleted id]
  | updateResource id name capacity bufferAfter, recs => recs = [.resourceUpdated id name capacity bufferAfter]
  | addRule id resourceId span blocking, recs => recs = [.ruleAdded id resourceId span.1 blocking]
  | batchAddRules rules, recs => ∃ r ∈ rules, recs = [.ruleAdded r.1 r.2.1 r.2.2.1.1 r.2.2.2]
  | updateRule id span blocking, recs => ∃ rid, recs = [.ruleUpdated id rid span.1 blocking]
  | removeRule id, recs => ∃ rid, recs = [.ruleRemoved id rid]
  | placeHold id resourceId span _ _, recs => ∃ expiresAt, recs = [.holdPlaced id resourceId span.1 expiresAt]
  | batchPlaceHolds _, recs => ∃ clamped : List (Ulid × Ulid × Span × Ms),
      recs = clamped.map fun h => .holdPlaced h.1 h.2.1 h.2.2.1 h.2.2.2
  | releaseHold id, recs | expireHold id, recs => ∃ rid, recs = [.holdReleased id rid]
  | commitHolds commits _, recs => ∃ entries,
      recs = [.holdsCommitted entries] ∧ entries.map (fun c => (c.holdId, c.bookingId, c.label)) = commits
  | confirmBooking id resourceId span label _, recs => recs = [.bookingConfirmed id resourceId span.1 label]
  | batchConfirmBookings bookings, recs =>
      recs = bookings.map fun b => .bookingConfirmed b.1 b.2.1 b.2.2.1.1 b.2.2.2
  | cancelBooking id, recs => ∃ rid, recs = [.bookingCancelled id rid]

end Op

namespace Engine

theorem Effect.run {ε : Type} {P Q : List Event → Prop} {e e' : Engine} {result : Except ε Unit}
    (h : e.Healthy) (effect : Effect P e result e') (wanted : ∀ recs, P recs → Q recs) :
    e'.Healthy ∧ Relation.ReflTransGen (Write Q) e e' := by
  cases result with
  | error error => cases effect; exact ⟨h, .refl⟩
  | ok u =>
      rcases effect with rfl | ⟨records, given, admits, wrote⟩
      · exact ⟨h, .refl⟩
      · exact ⟨wrote.healthy, .single ⟨records, wanted records given, admits, wrote⟩⟩

/-- Whatever an operation answers, it took the engine along admitted writes of its own records. -/
theorem run_writes (o : Op) {e : Engine} (h : e.Healthy) :
    Ends o.run e fun _ e' => e'.Healthy ∧ Relation.ReflTransGen (Write o.Writes) e e' := by
  have single : ∀ {x : EngineM Unit} {P : List Event → Prop}, Ends x e (Effect P e) →
      (∀ recs, P recs → o.Writes recs) →
      Ends x e fun _ e' => e'.Healthy ∧ Relation.ReflTransGen (Write o.Writes) e e' :=
    fun effect wanted => Ends.mono effect fun _ _ effect => Effect.run h effect wanted
  cases o with
  | createResource => exact single (effect_createResource h ..) fun _ => id
  | batchCreateResources resources =>
      refine Ends.check (fun _ _ => ⟨h, .refl⟩) fun _ _ => Ends.forM (fun r inside e h => ?_) e h
      exact Ends.mono (effect_createResource h ..) fun _ _ effect =>
        Effect.run h effect fun _ same => ⟨r, inside, same⟩
  | deleteResource => exact single (effect_deleteResource h ..) fun _ => id
  | updateResource => exact single (effect_updateResource h ..) fun _ => id
  | addRule x rid span => exact single (effect_addRule h x rid span.2 _) fun _ => id
  | batchAddRules rules =>
      refine Ends.check (fun _ _ => ⟨h, .refl⟩) fun _ _ => Ends.forM (fun r inside e h => ?_) e h
      obtain ⟨given, member, rfl⟩ := List.mem_map.mp inside
      exact Ends.mono (effect_addRule h _ _ given.2.2.1.2 _) fun _ _ effect =>
        Effect.run h effect fun _ same => ⟨given, member, same⟩
  | updateRule x span => exact single (effect_updateRule h x span.2 _) fun _ => id
  | removeRule => exact single (effect_removeRule h _) fun _ => id
  | placeHold x rid span => exact single (ends_adapt (effect_placeHold h x rid span.2 _ _)) fun _ => id
  | batchPlaceHolds holds =>
      refine single (effect_batchPlaceHolds h fun b inside => ?_) fun _ => id
      obtain ⟨given, _, rfl⟩ := List.mem_map.mp inside
      exact given.2.2.1.2
  | releaseHold => exact single (effect_removeHold h _) fun _ => id
  | expireHold => exact single (effect_removeHold h _) fun _ => id
  | commitHolds => exact single (ends_adapt (effect_commitHolds h ..)) fun _ => id
  | confirmBooking x rid span =>
      exact single (ends_adapt (effect_confirmBooking h x rid span.2 _ _)) fun _ => id
  | batchConfirmBookings bookings =>
      refine single (effect_batchConfirmBookings h fun b inside => ?_) fun _ same => ?_
      · obtain ⟨given, _, rfl⟩ := List.mem_map.mp inside
        exact given.2.2.1.2
      · rw [same, List.map_map]
        rfl
  | cancelBooking => exact single (effect_cancelBooking h _) fun _ => id

end Engine

end Deltat
