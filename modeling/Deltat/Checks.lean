import Deltat.Invariant
import Deltat.Lib.Outcome
import Deltat.Mutations

/-! # What a passed check says

Each operation decides everything before it writes anything. These lemmas read what the
write may rely on off a check that passed.
-/

namespace Deltat

open Lib Lib.Outcome Limits Conflict

namespace Conflict

theorem firstRepeat_none {ids : List Ulid} : ∀ {seen : List Ulid},
    firstRepeat seen ids = none ↔ ids.Nodup ∧ ∀ id ∈ ids, id ∉ seen := by
  induction ids with
  | nil => simp [firstRepeat]
  | cons id rest ih =>
      intro seen
      unfold firstRepeat
      split
      · next repeated => simp [repeated]
      · next new =>
          rw [ih, List.nodup_cons]
          constructor
          · rintro ⟨nodup, apart⟩
            refine ⟨⟨fun again => (apart id again) List.mem_cons_self, nodup⟩, fun x inside => ?_⟩
            rcases List.mem_cons.mp inside with rfl | later
            · exact new
            · exact fun inSeen => apart x later (List.mem_cons_of_mem _ inSeen)
          · rintro ⟨⟨notAgain, nodup⟩, apart⟩
            refine ⟨nodup, fun x later inSeen => ?_⟩
            rcases List.mem_cons.mp inSeen with rfl | before
            · exact notAgain later
            · exact apart x (List.mem_cons_of_mem _ later) before

theorem rejectRepeats_ok {ids : List Ulid} : rejectRepeats ids = .ok () ↔ ids.Nodup := by
  unfold rejectRepeats
  cases found : firstRepeat [] ids with
  | some id =>
      have repeated : ¬ ids.Nodup := fun nodup => by
        have none := firstRepeat_none.mpr ⟨nodup, fun id _ => List.not_mem_nil (a := id)⟩
        rw [found] at none
        cases none
      simp [repeated]
  | none => simp [(firstRepeat_none.mp found).1]

end Conflict

theorem rejectIf_ok {p : Prop} [Decidable p] {error : EngineError} : rejectIf p error = .ok () ↔ ¬ p := by
  unfold rejectIf
  split <;> simp_all

/-- A check that offers nothing passes exactly when the check behind it does. -/
theorem refusing_ok {α : Type} {c : Except EngineError α} {a : α} : refusing c = .ok a ↔ c = .ok a := by
  cases c <;> simp [refusing, Except.mapError]

namespace Engine

variable {e : Engine}

theorem mem_ascending {ids : List Ulid} {x : Ulid} : x ∈ ascending ids ↔ x ∈ ids := by
  simp [ascending]

theorem ascending_nodup (ids : List Ulid) : (ascending ids).Nodup :=
  (List.perm_insertionSort _ _).nodup_iff.mpr (List.nodup_dedup ids)

/-- Ids already in ascending order stay as they are. -/
theorem ascending_ascending (ids : List Ulid) : ascending (ascending ids) = ascending ids := by
  have sorted : (ascending ids).Pairwise (· ≤ ·) := List.pairwise_insertionSort _ _
  rw [ascending, List.Nodup.dedup (ascending_nodup ids), List.Pairwise.insertionSort_eq sorted]

theorem resource_ok {id : Ulid} {rs : ResourceState} :
    e.resource id = .ok rs ↔ e.store.getResource id = some rs := by
  unfold resource
  cases e.store.getResource id <;> simp

theorem rejectReusedId_ok {id : Ulid} :
    e.rejectReusedId id = .ok () ↔ e.store.getResourceForEntity id = none := by
  unfold rejectReusedId
  cases e.store.getResourceForEntity id <;> simp

theorem findIntervalOfKind_ok {guard : ResourceState} {id : Ulid} {isKind : IntervalKind → Bool} {i : Interval} :
    findIntervalOfKind guard id isKind = .ok i ↔
      guard.intervals.find? (·.id = id) = some i ∧ isKind i.kind = true := by
  unfold findIntervalOfKind
  cases guard.intervals.find? (·.id = id) with
  | none => simp
  | some j =>
      simp only [Option.some.injEq]
      split
      · next kind =>
          constructor
          · intro same; cases same; exact ⟨rfl, kind⟩
          · rintro ⟨rfl, _⟩; rfl
      · next kind =>
          constructor
          · intro same; cases same
          · rintro ⟨rfl, holds⟩; exact absurd holds kind

theorem findIntervalOfKind_mem {guard : ResourceState} {id : Ulid} {isKind : IntervalKind → Bool} {i : Interval}
    (found : findIntervalOfKind guard id isKind = .ok i) :
    i ∈ guard.intervals ∧ i.id = id ∧ isKind i.kind = true := by
  obtain ⟨first, kind⟩ := findIntervalOfKind_ok.mp found
  exact ⟨List.mem_of_find?_eq_some first, by simpa using List.find?_some first, kind⟩

theorem checkRemoval_ok {id rid : Ulid} {isKind : IntervalKind → Bool}
    (passed : e.checkRemoval id isKind = .ok rid) :
    e.store.getResourceForEntity id = some rid ∧ ∃ guard i, e.store.getResource rid = some guard ∧
      findIntervalOfKind guard id isKind = .ok i := by
  obtain ⟨⟨r, guard⟩, resolved, passed⟩ := bind_ok.mp passed
  obtain ⟨i, found, rfl⟩ := map_ok.mp passed
  unfold resolveEntity at resolved
  split at resolved
  · cases resolved
  · next located =>
      obtain ⟨rs, present, same⟩ := bind_ok.mp resolved
      cases same
      exact ⟨located, _, i, resource_ok.mp present, found⟩

theorem checkUpdateRule_ok {id rid : Ulid} {span : Span} {blocking : Bool}
    (passed : e.checkUpdateRule id span blocking = .ok rid) :
    validateSpan span = .ok () ∧ e.store.getResourceForEntity id = some rid ∧
      ∃ guard i, e.store.getResource rid = some guard ∧
        findIntervalOfKind guard id IntervalKind.isRule = .ok i := by
  obtain ⟨_, valid, passed⟩ := bind_ok.mp passed
  split at passed
  · cases passed
  · next resourceId located =>
      obtain ⟨_, _, passed⟩ := bind_ok.mp passed
      obtain ⟨guard, present, passed⟩ := bind_ok.mp passed
      obtain ⟨i, found, rfl⟩ := map_ok.mp passed
      exact ⟨valid, located, guard, i, resource_ok.mp present, found⟩

theorem checkAddRule_ok {id rid : Ulid} {span : Span} {blocking : Bool}
    (passed : e.checkAddRule id rid span blocking = .ok ()) :
    validateSpan span = .ok () ∧ e.store.getResourceForEntity id = none ∧
      ∃ guard, e.store.getResource rid = some guard := by
  obtain ⟨_, valid, passed⟩ := bind_ok.mp passed
  obtain ⟨guard, present, passed⟩ := bind_ok.mp passed
  obtain ⟨_, _, passed⟩ := bind_ok.mp passed
  obtain ⟨_, fresh, _⟩ := bind_ok.mp passed
  exact ⟨valid, rejectReusedId_ok.mp fresh, guard, resource_ok.mp present⟩

theorem containsResource_iff {s : InMemoryStore} {id : Ulid} :
    s.containsResource id = true ↔ (s.getResource id).isSome := Iff.rfl

theorem checkNewParent_ok {id : Ulid} {parentId : Option Ulid} (passed : e.checkNewParent id parentId = .ok ()) :
    ∀ p, parentId = some p → p ≠ id ∧ (e.store.getResource p).isSome := by
  rintro p rfl
  simp only [checkNewParent] at passed
  split at passed
  · cases passed
  · next apart =>
      split at passed
      · cases passed
      · next present => exact ⟨apart, by simpa [containsResource_iff] using present⟩

theorem checkCreate_ok {id : Ulid} {parentId : Option Ulid} {name : Option String} {capacity : UInt32}
    {bufferAfter : Option Ms} (passed : e.checkCreate id parentId name capacity bufferAfter = .ok ()) :
    (ResourceState.new id parentId name capacity bufferAfter).WellFormed ∧ e.store.getResource id = none ∧
      ∀ p, parentId = some p → p ≠ id ∧ (e.store.getResource p).isSome := by
  obtain ⟨_, _, passed⟩ := bind_ok.mp passed
  obtain ⟨_, capacityOk, passed⟩ := bind_ok.mp passed
  obtain ⟨_, bufferOk, passed⟩ := bind_ok.mp passed
  obtain ⟨_, nameOk, passed⟩ := bind_ok.mp passed
  obtain ⟨_, absent, parent⟩ := bind_ok.mp passed
  refine ⟨ResourceState.new_wellFormed capacityOk bufferOk nameOk, ?_, checkNewParent_ok parent⟩
  simpa [containsResource_iff] using rejectIf_ok.mp absent

/-- A new resource's parent has passed the depth check. -/
theorem checkCreate_depth {id : Ulid} {parentId : Option Ulid} {name : Option String} {capacity : UInt32}
    {bufferAfter : Option Ms} (passed : e.checkCreate id parentId name capacity bufferAfter = .ok ()) :
    ∀ p, parentId = some p → checkDepth e.store maxHierarchyDepth (some p) = .ok () := by
  obtain ⟨_, _, passed⟩ := bind_ok.mp passed
  obtain ⟨_, _, passed⟩ := bind_ok.mp passed
  obtain ⟨_, _, passed⟩ := bind_ok.mp passed
  obtain ⟨_, _, passed⟩ := bind_ok.mp passed
  obtain ⟨_, _, parent⟩ := bind_ok.mp passed
  rintro p rfl
  simp only [checkNewParent] at parent
  split at parent
  · cases parent
  · split at parent
    · cases parent
    · exact parent

theorem checkDelete_ok {id : Ulid} {rs : ResourceState} (passed : e.checkDelete id = .ok rs) :
    e.store.getResource id = some rs ∧ e.store.getChildren id = [] := by
  obtain ⟨_, _, passed⟩ := bind_ok.mp passed
  obtain ⟨_, childless, present⟩ := bind_ok.mp passed
  refine ⟨resource_ok.mp present, ?_⟩
  simpa [InMemoryStore.hasChildren] using rejectIf_ok.mp childless

theorem holdExpiry_bounds {requested expiresAt : Ms} (passed : e.holdExpiry requested = .ok expiresAt) :
    i64Min ≤ expiresAt ∧ expiresAt ≤ i64Max := by
  obtain ⟨_, valid, clamped⟩ := bind_ok.mp passed
  obtain ⟨lower, upper⟩ := validateTimestamp_ok.mp valid
  have bounds : i64Min ≤ satAdd e.clock e.maxHoldTtlMs := le_max_left _ _
  simp only [pure, Except.pure, Except.ok.injEq] at clamped
  simp only [minValidTimestampMs, maxValidTimestampMs, i64Min, i64Max] at *
  lia

/-! ## Allocations -/

theorem admitOne_ok {id rid : Ulid} {span : Span} {rules : InheritedRules} {windowEnd : Ms} {limit : Nat}
    (passed : e.admitOne id rid span rules windowEnd limit = .ok ()) :
    e.store.getResourceForEntity id = none ∧ ∃ guard, e.store.getResource rid = some guard ∧
      checkNoConflict guard span e.clock = .ok () := by
  unfold admitOne at passed
  split at passed
  · cases passed
  · next guard present =>
      split at passed
      · cases passed
      · next free =>
          split at passed
          · cases passed
          · next admitted =>
              obtain ⟨_, fresh, _⟩ := bind_ok.mp free
              obtain ⟨_, _, noConflict⟩ := bind_ok.mp admitted
              exact ⟨rejectReusedId_ok.mp fresh, guard, present, noConflict⟩

theorem checkHold_ok {id rid : Ulid} {span : Span} {requested expiresAt : Ms} {limit : Nat}
    (passed : e.checkHold id rid span requested limit = .ok expiresAt) :
    validateSpan span = .ok () ∧ i64Min ≤ expiresAt ∧ expiresAt ≤ i64Max ∧
      e.store.getResourceForEntity id = none ∧ ∃ guard, e.store.getResource rid = some guard ∧
        checkNoConflict guard span e.clock = .ok () := by
  obtain ⟨⟨clamped, rules⟩, context, passed⟩ := bind_ok.mp passed
  obtain ⟨_, admitted, same⟩ := bind_ok.mp passed
  cases same
  obtain ⟨_, valid, context⟩ := bind_ok.mp (refusing_ok.mp context)
  obtain ⟨_, expiry, context⟩ := bind_ok.mp context
  obtain ⟨_, _, same⟩ := bind_ok.mp context
  cases same
  obtain ⟨lower, upper⟩ := holdExpiry_bounds expiry
  exact ⟨valid, lower, upper, admitOne_ok admitted⟩

theorem checkBooking_ok {id rid : Ulid} {span : Span} {label : Option String} {limit : Nat}
    (passed : e.checkBooking id rid span label limit = .ok ()) :
    validateSpan span = .ok () ∧ validateLabel label = .ok () ∧
      e.store.getResourceForEntity id = none ∧ ∃ guard, e.store.getResource rid = some guard ∧
        checkNoConflict guard span e.clock = .ok () := by
  obtain ⟨_, context, admitted⟩ := bind_ok.mp passed
  obtain ⟨_, valid, context⟩ := bind_ok.mp (refusing_ok.mp context)
  obtain ⟨_, label, _⟩ := bind_ok.mp context
  exact ⟨valid, label, admitOne_ok admitted⟩

/-- What a batch admission says of the members on one resource. -/
structure AdmittedOn (e : Engine) (guard : ResourceState) (batch : List (Ulid × Span)) : Prop where
  noConflict : ∀ member ∈ batch, checkNoConflict guard member.2 e.clock = .ok ()
  together : 1 < batch.length →
    if guard.capacity.toNat ≤ 1 then checkPairwise guard.buffer batch = .ok ()
    else checkBatchCapacity guard (batch.map (·.2)) e.clock = .ok ()

theorem admitOn_ok {guard : ResourceState} {rules : InheritedRules} {batch : List (Ulid × Span)}
    (passed : e.admitOn guard rules batch = .ok ()) : e.AdmittedOn guard batch := by
  obtain ⟨_, each, together⟩ := bind_ok.mp passed
  refine ⟨fun member inside => ?_, fun several => ?_⟩
  · obtain ⟨_, _, noConflict⟩ := bind_ok.mp (forM_ok.mp each member inside)
    exact noConflict
  · rw [if_pos several] at together
    split at together <;> simp_all

/-- What an admitted batch of new allocations may rely on. -/
structure AdmittedBatch (e : Engine) (members : List (Ulid × Ulid × Span)) : Prop where
  size : members.length ≤ maxBatchSize
  spans : ∀ m ∈ members, validateSpan m.2.2 = .ok ()
  idsNodup : (members.map (·.1)).Nodup
  fresh : ∀ m ∈ members, e.store.getResourceForEntity m.1 = none
  admitted : ∀ m ∈ members, ∃ guard, e.store.getResource m.2.1 = some guard ∧
    e.AdmittedOn guard (membersOn members m.2.1)

theorem admitBatch_ok {members : List (Ulid × Ulid × Span)} (passed : e.admitBatch members = .ok ()) :
    e.AdmittedBatch members := by
  obtain ⟨_, size, passed⟩ := bind_ok.mp passed
  obtain ⟨_, spans, passed⟩ := bind_ok.mp passed
  obtain ⟨_, nodup, passed⟩ := bind_ok.mp passed
  obtain ⟨context, context_ok, passed⟩ := bind_ok.mp passed
  obtain ⟨locked, lock, passed⟩ := bind_ok.mp passed
  obtain ⟨_, _, passed⟩ := bind_ok.mp passed
  obtain ⟨_, fresh, admitted⟩ := bind_ok.mp passed
  refine ⟨Nat.le_of_not_lt (rejectIf_ok.mp size), forM_ok.mp spans, rejectRepeats_ok.mp nodup,
    fun m inside => rejectReusedId_ok.mp (forM_ok.mp fresh m inside), fun m inside => ?_⟩
  have onList : m.2.1 ∈ ascending (members.map (·.2.1)) :=
    mem_ascending.mpr (List.mem_map_of_mem inside)
  have idempotent : ascending (ascending (members.map (·.2.1))) = ascending (members.map (·.2.1)) :=
    ascending_ascending _
  unfold lockResources at lock
  rw [idempotent] at lock
  obtain ⟨guard, rules, row, present, _⟩ := mapM_ok_zip lock context_ok onList
  exact ⟨guard, resource_ok.mp present, admitOn_ok (forM_ok.mp admitted _ row)⟩

/-! ## Commits -/

/-- What the check of one entry of a commit passes on. -/
def AdmitsCommit (e : Engine) (holdId bookingId : Ulid) (label : Option String) (rid : Ulid)
    (entry : HoldCommit) : Prop :=
  ∃ guard hold, e.store.getResource rid = some guard ∧
    findIntervalOfKind guard holdId IntervalKind.isHold = .ok hold ∧
    e.store.getResourceForEntity bookingId = none ∧
    checkNoConflictExcluding guard hold.span e.clock (some holdId) = .ok () ∧
    entry = ⟨holdId, bookingId, rid, hold.span, label⟩

theorem admitCommit_ok {limit : Nat} {holdId bookingId rid : Ulid} {label : Option String} {entry : HoldCommit} :
    e.admitCommit limit holdId bookingId label rid = .ok entry ↔
      e.AdmitsCommit holdId bookingId label rid entry := by
  unfold admitCommit
  constructor
  · intro passed
    split at passed
    · cases passed
    · next guard span resolved =>
        split at passed
        · cases passed
        · next noConflict =>
            cases passed
            obtain ⟨guard', present, resolved⟩ := bind_ok.mp resolved
            obtain ⟨hold, found, resolved⟩ := bind_ok.mp resolved
            obtain ⟨_, fresh, same⟩ := bind_ok.mp resolved
            cases same
            exact ⟨guard, hold, resource_ok.mp present, found, rejectReusedId_ok.mp fresh, noConflict, rfl⟩
  · rintro ⟨guard, hold, present, found, fresh, noConflict, rfl⟩
    have resolved : (do
        let guard ← e.resource rid
        let hold ← findIntervalOfKind guard holdId IntervalKind.isHold
        e.rejectReusedId bookingId
        return (guard, hold.span) : Except EngineError (ResourceState × Span)) = .ok (guard, hold.span) :=
      bind_ok.mpr ⟨guard, resource_ok.mpr present, bind_ok.mpr ⟨hold, found,
        bind_ok.mpr ⟨(), rejectReusedId_ok.mpr fresh, rfl⟩⟩⟩
    rw [resolved]
    simp only [noConflict]

theorem lockResources_ok_iff {ids : List Ulid} :
    (∃ locked, e.lockResources ids = .ok locked) ↔ ∀ r ∈ ids, (e.store.getResource r).isSome := by
  unfold lockResources
  rw [mapM_ok_iff]
  simp only [mem_ascending, resource_ok, Option.isSome_iff_exists]

/-- What a commit's list has to satisfy before any entry is weighed. -/
structure ResolvesCommits (e : Engine) (commits : List (Ulid × Ulid × Option String)) (rids : List Ulid) :
    Prop where
  size : commits.length ≤ maxBatchSize
  labels : ∀ c ∈ commits, validateLabel c.2.2 = .ok ()
  holdsNodup : (commits.map (·.1)).Nodup
  bookingsNodup : (commits.map (·.2.1)).Nodup
  located : List.Forall₂ (fun c r => e.store.getResourceForEntity c.1 = some r) commits rids
  present : ∀ r ∈ rids, (e.store.getResource r).isSome

theorem resolveCommits_ok {commits : List (Ulid × Ulid × Option String)} {rids : List Ulid} :
    e.resolveCommits commits = .ok rids ↔ e.ResolvesCommits commits rids := by
  constructor
  · intro passed
    obtain ⟨_, size, passed⟩ := bind_ok.mp passed
    obtain ⟨_, labels, passed⟩ := bind_ok.mp passed
    obtain ⟨_, holds, passed⟩ := bind_ok.mp passed
    obtain ⟨_, bookings, passed⟩ := bind_ok.mp passed
    obtain ⟨rids', located, passed⟩ := bind_ok.mp passed
    obtain ⟨_, locked, same⟩ := bind_ok.mp passed
    cases same
    exact ⟨Nat.le_of_not_lt (rejectIf_ok.mp size), forM_ok.mp labels, rejectRepeats_ok.mp holds,
      rejectRepeats_ok.mp bookings, (mapM_ok.mp located).imp fun c r found => by
        cases entry : e.store.getResourceForEntity c.1 <;> simp_all,
      lockResources_ok_iff.mp ⟨_, locked⟩⟩
  · intro h
    obtain ⟨locked, lock⟩ := lockResources_ok_iff.mpr h.present
    exact bind_ok.mpr ⟨(), rejectIf_ok.mpr (Nat.not_lt.mpr h.size), bind_ok.mpr ⟨(), forM_ok.mpr h.labels,
      bind_ok.mpr ⟨(), rejectRepeats_ok.mpr h.holdsNodup, bind_ok.mpr ⟨(), rejectRepeats_ok.mpr h.bookingsNodup,
        bind_ok.mpr ⟨rids, mapM_ok.mpr (h.located.imp fun c r found => by rw [found]),
          bind_ok.mpr ⟨locked, lock, rfl⟩⟩⟩⟩⟩⟩

theorem checkCommits_ok {commits : List (Ulid × Ulid × Option String)} {limit : Nat} {rids : List Ulid}
    {entries : List HoldCommit} :
    e.checkCommits commits limit = .ok (rids, entries) ↔
      e.ResolvesCommits commits rids ∧
        List.Forall₂ (fun c entry => e.AdmitsCommit c.1.1 c.1.2.1 c.1.2.2 c.2 entry)
          (commits.zip rids) entries := by
  constructor
  · intro passed
    obtain ⟨rids', resolved, passed⟩ := bind_ok.mp passed
    obtain ⟨entries', admitted, same⟩ := bind_ok.mp passed
    cases same
    exact ⟨resolveCommits_ok.mp (refusing_ok.mp resolved),
      (mapM_ok.mp admitted).imp fun c entry => admitCommit_ok.mp⟩
  · rintro ⟨resolved, admitted⟩
    exact bind_ok.mpr ⟨rids, refusing_ok.mpr (resolveCommits_ok.mpr resolved),
      bind_ok.mpr ⟨entries, mapM_ok.mpr (admitted.imp fun c entry => admitCommit_ok.mpr), rfl⟩⟩

/-- What a passed commit check says of the entries it will record. -/
structure AdmittedCommits (e : Engine) (entries : List HoldCommit) : Prop where
  size : entries.length ≤ maxBatchSize
  holdsNodup : (entries.map (·.holdId)).Nodup
  bookingsNodup : (entries.map (·.bookingId)).Nodup
  labels : ∀ c ∈ entries, validateLabel c.label = .ok ()
  located : ∀ c ∈ entries, e.store.getResourceForEntity c.holdId = some c.resourceId
  admitted : ∀ c ∈ entries, e.AdmitsCommit c.holdId c.bookingId c.label c.resourceId c

/-- The entries of a record against the list they were made from. -/
theorem entries_of_commits {commits : List (Ulid × Ulid × Option String)} {rids : List Ulid}
    {entries : List HoldCommit} (length : commits.length = rids.length)
    (each : List.Forall₂ (fun c entry => e.AdmitsCommit c.1.1 c.1.2.1 c.1.2.2 c.2 entry)
      (commits.zip rids) entries) :
    entries.map (fun c => (c.holdId, c.bookingId, c.label)) = commits ∧ entries.map (·.resourceId) = rids := by
  have rows : entries.map (fun c => ((c.holdId, c.bookingId, c.label), c.resourceId)) = commits.zip rids := by
    generalize commits.zip rids = rows at each
    induction each with
    | nil => rfl
    | cons first _ ih =>
        obtain ⟨_, _, _, _, _, _, rfl⟩ := first
        rw [List.map_cons, ih]
  have fst := congrArg (List.map Prod.fst) rows
  have snd := congrArg (List.map Prod.snd) rows
  rw [List.map_map, List.map_fst_zip length.le] at fst
  rw [List.map_map, List.map_snd_zip length.ge] at snd
  exact ⟨fst, snd⟩

theorem checkCommits_admitted {commits : List (Ulid × Ulid × Option String)} {limit : Nat} {rids : List Ulid}
    {entries : List HoldCommit} (passed : e.checkCommits commits limit = .ok (rids, entries)) :
    e.AdmittedCommits entries ∧ entries.map (fun c => (c.holdId, c.bookingId, c.label)) = commits ∧
      entries.map (·.resourceId) = rids := by
  obtain ⟨resolved, each⟩ := checkCommits_ok.mp passed
  obtain ⟨list, resources⟩ := entries_of_commits resolved.located.length_eq each
  refine ⟨?_, list, resources⟩
  subst list resources
  have size := resolved.size
  have holds := resolved.holdsNodup
  have bookings := resolved.bookingsNodup
  have labels := resolved.labels
  have located := resolved.located
  rw [List.forall₂_map_left_iff, List.forall₂_map_right_iff, List.forall₂_same] at located
  rw [List.length_map] at size
  rw [List.map_map] at holds bookings
  rw [List.forall_mem_map] at labels
  refine ⟨size, holds, bookings, labels, located, ?_⟩
  have zipped : (entries.map fun c => (c.holdId, c.bookingId, c.label)).zip (entries.map (·.resourceId)) =
      entries.map fun c => ((c.holdId, c.bookingId, c.label), c.resourceId) := List.zip_map'
  rw [zipped, List.forall₂_map_left_iff, List.forall₂_same] at each
  exact each

end Engine

end Deltat
