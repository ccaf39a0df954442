import Deltat.Unlabelled

/-! # Labels do not leak

Two runs of the same operations at the same times, under other booking labels: every answer and
every notice is the same. Each operation keeps the two engines the same but for labels.
-/

namespace Deltat

open Lib Lib.Outcome Lib.TwoRuns Limits Conflict

namespace Engine

section Effects

variable {e f : Engine}

theorem queue_alike (records records' : List Event) : Alike SameButLabels Eq (queue records) (queue records') := by
  intro e f same
  unfold AlikeFrom queue
  rw [exec_bind_ok (exec_get e), exec_bind_ok (exec_get f), same.failed, same.flushFault]
  cases f.failed with
  | true => exact ⟨.error _, same⟩
  | false =>
      cases fault : f.flushFault with
      | none => exact ⟨.ok rfl, { same with failed := rfl, flushFault := rfl }⟩
      | some what => exact ⟨.ok rfl, { same with failed := rfl, flushFault := rfl }⟩

theorem modifyStore_alike {g h : InMemoryStore → InMemoryStore}
    (keeps : ∀ s t : InMemoryStore, s.SameButLabels t → (g s).SameButLabels (h t)) :
    Alike SameButLabels Eq (modifyStore g) (modifyStore h) :=
  fun e f same => ⟨.ok rfl, { same with store := keeps e.store f.store same.store }⟩

theorem walAppend_alike (a b : Event) : Alike SameButLabels Eq (walAppend a) (walAppend b) := by
  apply (queue_alike [a] [b]).bind
  rintro outcome _ rfl e f same
  exact .liftExcept (.of_eq rfl) same

theorem persistAndApply_alike (r : Ulid) {a b : Event} (event : a.SameButLabel b) :
    Alike SameButLabels Eq (persistAndApply r a) (persistAndApply r b) := by
  apply (walAppend_alike a b).bind
  rintro _ _ rfl
  exact modifyStore_alike fun s t same => same.replayOn r event

theorem persistEarly_alike (locked : List Ulid) {records records' : List Event}
    (events : List.Forall₂ Event.SameButLabel records records') :
    Alike SameButLabels Eq (persistEarly locked records) (persistEarly locked records') := by
  have changes : List.Forall₂ Event.SameButLabel (records.flatMap Event.perResource)
      (records'.flatMap Event.perResource) := by
    induction events with
    | nil => exact .nil
    | cons first _ ih => exact List.rel_append first.perResource ih
  apply (queue_alike records records').bind
  rintro outcome _ rfl
  apply (modifyStore_alike fun s t same => same.foldl_applyChanges changes locked).bind
  rintro _ _ rfl e f same
  exact .liftExcept (.of_eq rfl) same

theorem watchHoldExpiry_alike (expiresAt : Ms) :
    Alike SameButLabels Eq (watchHoldExpiry expiresAt) (watchHoldExpiry expiresAt) := by
  intro e f same
  exact ⟨.ok rfl, { same with
    earliestHoldExpiry := congrArg (min · expiresAt) same.earliestHoldExpiry
    holdGeneration := congrArg (· + 1) same.holdGeneration }⟩

theorem createResource_alike (id : Ulid) (parentId : Option Ulid) (name : Option String) (capacity : UInt32)
    (bufferAfter : Option Ms) : Alike SameButLabels Eq (createResource id parentId name capacity bufferAfter)
      (createResource id parentId name capacity bufferAfter) := by
  intro e f same
  apply AlikeFrom.get
  apply AlikeFrom.check (.of_eq (same.checkCreate id parentId name capacity bufferAfter)) same
  rintro _ _ rfl
  apply (walAppend_alike _ _ e f same).bind
  rintro _ _ rfl
  apply (modifyStore_alike fun s t same => same.insertResource id rfl).bind
  rintro _ _ rfl
  cases parentId with
  | none => exact fun e f same => ⟨.ok rfl, same⟩
  | some pid => exact modifyStore_alike fun s t same => same.addChild pid id

theorem deleteResource_alike (id : Ulid) : Alike SameButLabels Eq (deleteResource id) (deleteResource id) := by
  intro e f same
  apply AlikeFrom.get
  apply AlikeFrom.check (same.checkDelete id) same
  intro rs rs' resources
  have unlinked : ∀ s t : InMemoryStore, s.SameButLabels t → (s.unlink rs id).SameButLabels (t.unlink rs' id) := by
    intro s t same
    have parent : rs.parentId = rs'.parentId := ResourceState.blind resources fun _ => rfl
    have intervals : rs.intervals.map Interval.unlabelled = rs'.intervals.map Interval.unlabelled := by
      rw [← rs.unlabelled_intervals, resources, rs'.unlabelled_intervals]
    unfold InMemoryStore.unlink
    rw [parent]
    cases rs'.parentId with
    | none => exact same.unmapIntervals intervals
    | some pid => exact (same.unmapIntervals intervals).removeChild pid id
  apply (modifyStore_alike unlinked e f same).bind
  rintro _ _ rfl
  apply (walAppend_alike _ _).bind
  rintro _ _ rfl
  exact modifyStore_alike fun s t same => same.removeResource id

end Effects

/-! ## What runs by itself -/

section Background

variable {e f : Engine}

theorem gcResource_same {s t : InMemoryStore} (same : s.SameButLabels t) (now cutoff : Ms) (r : Ulid) :
    (gcResource now cutoff s r).SameButLabels (gcResource now cutoff t r) := by
  unfold gcResource
  rcases same.look r with ⟨here, there⟩ | ⟨rs, rs', here, there, resources⟩
  · rw [here, there]
    exact same
  · rw [here, there]
    have blind : ∀ (buffer : Ms) (i : Interval), dominated now cutoff buffer i.unlabelled = dominated now cutoff buffer i := by
      intro buffer i
      rcases i with ⟨id, span, kind⟩
      cases kind <;> rfl
    have buffer : rs.buffer = rs'.buffer := ResourceState.blind resources fun _ => rfl
    have intervals : rs.intervals.map Interval.unlabelled = rs'.intervals.map Interval.unlabelled := by
      rw [← rs.unlabelled_intervals, resources, rs'.unlabelled_intervals]
    have filtered : ∀ p : Interval → Bool, (∀ i, p i.unlabelled = p i) →
        (rs.intervals.filter p).map Interval.unlabelled = (rs'.intervals.filter p).map Interval.unlabelled := by
      intro p blind
      have mapped : ∀ xs : List Interval, (xs.filter p).map Interval.unlabelled = (xs.map Interval.unlabelled).filter p := by
        intro xs
        rw [List.filter_map, show p ∘ Interval.unlabelled = p from funext blind]
      rw [mapped, mapped, intervals]
    have removed := filtered _ (blind rs.buffer)
    have kept := filtered (fun i => !dominated now cutoff rs.buffer i) fun i => by rw [blind]
    have stores := same.unmapIntervals removed
    simp only [List.partition_eq_filter_filter, ← buffer]
    refine ⟨fun x => ?_, ?_, stores.entities, stores.children, stores.parents⟩
    · by_cases at' : x = r
      · subst at'
        have fields := resources
        simp only [ResourceState.unlabelled, ResourceState.mk.injEq] at fields
        simp only [InMemoryStore.getResource, AList.lookup_insert, Option.map_some, ResourceState.unlabelled,
          Option.some.injEq, ResourceState.mk.injEq]
        exact ⟨fields.1, fields.2.1, fields.2.2.1, fields.2.2.2.1, fields.2.2.2.2.1, kept⟩
      · simpa [InMemoryStore.getResource, AList.lookup_insert_ne at'] using same.resources x
    · simp only [InMemoryStore.resourceIds, AList.keys_insert]
      rw [show s.resources.keys = t.resources.keys from same.ids]

theorem gcPastIntervals_same (same : e.SameButLabels f) (now retentionMs : Ms) :
    (e.gcPastIntervals now retentionMs).SameButLabels (f.gcPastIntervals now retentionMs) := by
  have each : ∀ (rids : List Ulid) (s t : InMemoryStore), s.SameButLabels t →
      (rids.foldl (gcResource now (satSub now retentionMs)) s).SameButLabels
        (rids.foldl (gcResource now (satSub now retentionMs)) t) := by
    intro rids
    induction rids with
    | nil => exact fun _ _ same => same
    | cons r rest ih => exact fun s t same => ih _ _ (gcResource_same same _ _ r)
  have ids : e.store.resourceIds = f.store.resourceIds := same.store.ids
  unfold gcPastIntervals
  simp only [ids]
  exact { same with store := each f.store.resourceIds e.store f.store same.store }

theorem compactWal_same (same : e.SameButLabels f) (order : List Ulid) :
    (e.compactWal order).SameButLabels (f.compactWal order) := by
  unfold compactWal
  rw [same.failed]
  split
  · exact same
  · exact { same with failed := rfl }

end Background

end Engine

/-! ## Notices -/

namespace Notice

theorem of_same {a b : Event} (event : a.SameButLabel b) : of a = of b := by
  have label : a.broadcastable = b.broadcastable := event
  simp only [of, label]

theorem ending_same {a b : Event} (event : a.SameButLabel b) (ended : Ended) : ending a ended = ending b ended := by
  have label : a.broadcastable = b.broadcastable := event
  simp only [ending, label]

end Notice

namespace NotifyingEngine

/-- The engines differ in nothing but labels, and the same has been sent. -/
structure SameButLabels (s t : NotifyingEngine) : Prop where
  engine : s.toEngine.SameButLabels t.toEngine
  notify : s.notify = t.notify

section Announcing

variable {ε α β : Type} {Q : α → β → Prop}

theorem onEngine_alike {x : ExceptT ε (StateM Engine) α} {y : ExceptT ε (StateM Engine) β}
    (inner : Alike Engine.SameButLabels Q x y) : Alike SameButLabels Q (onEngine x) (onEngine y) :=
  fun _ _ same => ⟨(inner _ _ same.engine).1, (inner _ _ same.engine).2, same.notify⟩

/-- An operation lifted to one that may carry a counter-offer. -/
theorem lift_alike {x : NotifyM α} {y : NotifyM β} (inner : Alike SameButLabels Q x y) :
    Alike SameButLabels Q (liftM x : NotifyOfferM α) (liftM y : NotifyOfferM β) :=
  fun s t same => (inner s t same).adapt

theorem return_alike {x : NotifyM Unit} {y : NotifyM Unit} (inner : Alike SameButLabels Eq x y) :
    Alike SameButLabels Eq (liftM x >>= fun _ => pure none : NotifyOfferM (Option Ulid))
      (liftM y >>= fun _ => pure none) :=
  (lift_alike inner).bind fun _ _ _ _ _ states => .pure rfl states

variable {s t : InMemoryStore}

theorem recipients_same (stores : s.SameButLabels t) (r : Ulid) (parentId : Option Ulid) :
    recipients s r parentId = recipients t r parentId := by
  have chain : ∀ (fuel : Nat) (id : Option Ulid), successors s fuel id = successors t fuel id := by
    intro fuel
    induction fuel with
    | zero => exact fun id => by cases id <;> rfl
    | succ fuel ih =>
        intro id
        cases id with
        | none => rfl
        | some x => rw [successors, successors, stores.getParent, ih]
  exact congrArg (r :: ·) (chain _ _)

theorem guardParent_same (stores : s.SameButLabels t) (r : Ulid) : guardParent s r = guardParent t r := by
  unfold guardParent
  rcases stores.look r with ⟨here, there⟩ | ⟨rs, rs', here, there, resources⟩
  · rw [here, there]
  · rw [here, there]
    exact ResourceState.blind (f := (·.parentId)) resources fun _ => rfl

theorem announcement_same (stores : s.SameButLabels t) (r : Ulid) (notice : Notice) :
    announcement s r notice = announcement t r notice := by
  simp only [announcement, recipients_same stores, guardParent_same stores]

theorem announceEach_same (stores : s.SameButLabels t) {as bs : List Event}
    (events : List.Forall₂ Event.SameButLabel as bs) : announceEach s as = announceEach t bs := by
  unfold announceEach
  induction events with
  | nil => rfl
  | @cons a b as bs first _ ih =>
      have here : (a.resourceId?.map fun r => announcement s r (.of a)) =
          b.resourceId?.map fun r => announcement t r (.of b) := by
        simp only [first.resourceId, Notice.of_same first, announcement_same stores]
      rw [List.filterMap_cons, List.filterMap_cons, here, ih]

theorem announceCommit_same (stores : s.SameButLabels t) {as bs : List HoldCommit}
    (entries : List.Forall₂ Engine.SameEntry as bs) : as.flatMap (announceCommit s) = bs.flatMap (announceCommit t) := by
  induction entries with
  | nil => rfl
  | @cons a b as bs first _ ih =>
      have here : announceCommit s a = announceCommit t b := by
        rcases a with ⟨holdId, bookingId, resourceId, span, label⟩
        rcases b with ⟨_, _, _, _, label'⟩
        obtain ⟨rfl, rfl, rfl, rfl, -⟩ := HoldCommit.mk.inj first
        have booked : (Event.bookingConfirmed bookingId resourceId span label).SameButLabel
            (.bookingConfirmed bookingId resourceId span label') := rfl
        simp only [announceCommit, announcement_same stores, Notice.of_same booked]
      rw [List.flatMap_cons, List.flatMap_cons, here, ih]

theorem send_alike (announcement : Announcement) : Alike SameButLabels Eq (send announcement) (send announcement) :=
  fun _ _ same =>
    ⟨.ok rfl, same.engine,
      congrArg (announcement.recipients.foldl (NoticeHub.send · · announcement.notice)) same.notify⟩

theorem publish_alike (r : Ulid) (parentId : Option Ulid) (notice : Notice) :
    Alike SameButLabels Eq (publish r parentId notice) (publish r parentId notice) := by
  intro s t same
  apply AlikeFrom.get
  rw [recipients_same same.engine.store]
  exact send_alike _ s t same

theorem persistAndApplyEnded_alike (r : Ulid) {a b : Event} (event : a.SameButLabel b) (ended : Option Ended) :
    Alike SameButLabels Eq (persistAndApplyEnded r a ended) (persistAndApplyEnded r b ended) := by
  apply (onEngine_alike (Engine.persistAndApply_alike r event)).bind
  rintro _ _ rfl s t same
  apply AlikeFrom.get
  have notice : ended.elim (Notice.of a) (Notice.ending a) = ended.elim (Notice.of b) (Notice.ending b) := by
    cases ended with
    | none => exact Notice.of_same event
    | some ended => exact Notice.ending_same event ended
  rw [guardParent_same same.engine.store, notice]
  exact publish_alike r _ _ s t same

theorem persistEarly_alike (locked : List Ulid) {records records' : List Event}
    (events : List.Forall₂ Event.SameButLabel records records') (announce : List Announcement) :
    Alike SameButLabels Eq (persistEarly locked records announce) (persistEarly locked records' announce) := by
  apply (onEngine_alike (Engine.persistEarly_alike locked events)).bind
  exact fun _ _ _ => .forM send_alike announce

theorem persistEarlyOne_alike (r : Ulid) {a b : Event} (event : a.SameButLabel b) :
    Alike SameButLabels Eq (persistEarlyOne r a) (persistEarlyOne r b) := by
  intro s t same
  apply AlikeFrom.get
  rw [announcement_same same.engine.store, Notice.of_same event]
  exact persistEarly_alike [r] (.cons event .nil) _ s t same

end Announcing

/-! ## Operations -/

section Operations

theorem createResource_alike (id : Ulid) (parentId : Option Ulid) (name : Option String) (capacity : UInt32)
    (bufferAfter : Option Ms) : Alike SameButLabels Eq (createResource id parentId name capacity bufferAfter)
      (createResource id parentId name capacity bufferAfter) := by
  apply (onEngine_alike (Engine.createResource_alike id parentId name capacity bufferAfter)).bind
  exact fun _ _ _ => publish_alike id parentId _

theorem deleteResource_alike (id : Ulid) : Alike SameButLabels Eq (deleteResource id) (deleteResource id) := by
  intro s t same
  apply AlikeFrom.get
  rw [guardParent_same same.engine.store]
  apply (onEngine_alike (Engine.deleteResource_alike id) s t same).bind
  rintro _ _ _
  apply (publish_alike id (guardParent t.store id) _).bind
  exact fun _ _ _ s t same => ⟨.ok rfl, same.engine, congrArg (·.remove id) same.notify⟩

theorem updateResource_alike (id : Ulid) (name : Option (Option String)) (capacity : Option UInt32)
    (bufferAfter : Option (Option Ms)) :
    Alike SameButLabels Eq (updateResource id name capacity bufferAfter) (updateResource id name capacity bufferAfter) := by
  intro s t same
  apply AlikeFrom.check (.of_eq rfl) same
  rintro _ _ _
  apply AlikeFrom.get
  apply AlikeFrom.check (same.engine.resource id) same
  exact fun _ _ _ => persistAndApplyEnded_alike id rfl none s t same

theorem addRule_alike (id r : Ulid) (span : Span) (blocking : Bool) :
    Alike SameButLabels Eq (addRule id r span blocking) (addRule id r span blocking) := by
  intro s t same
  apply AlikeFrom.get
  apply AlikeFrom.check (.of_eq (same.engine.checkAddRule id r span blocking)) same
  exact fun _ _ _ => persistAndApplyEnded_alike r rfl none s t same

theorem batchCreateResources_alike (resources : List (Ulid × Option Ulid × Option String × UInt32 × Option Ms)) :
    Alike SameButLabels Eq (batchCreateResources resources) (batchCreateResources resources) := by
  intro s t same
  apply AlikeFrom.check (.of_eq rfl) same
  rintro _ _ _
  apply Alike.forM _ resources s t same
  exact fun r => createResource_alike r.1 r.2.1 r.2.2.1 r.2.2.2.1 r.2.2.2.2

theorem batchAddRules_alike (rules : List (Ulid × Ulid × Span × Bool)) :
    Alike SameButLabels Eq (batchAddRules rules) (batchAddRules rules) := by
  intro s t same
  apply AlikeFrom.check (.of_eq rfl) same
  rintro _ _ _
  apply Alike.forM _ rules s t same
  exact fun r => addRule_alike r.1 r.2.1 r.2.2.1 r.2.2.2

theorem updateRule_alike (id : Ulid) (span : Span) (blocking : Bool) :
    Alike SameButLabels Eq (updateRule id span blocking) (updateRule id span blocking) := by
  intro s t same
  apply AlikeFrom.get
  apply AlikeFrom.check (.of_eq (same.engine.checkUpdateRule id span blocking)) same
  rintro r _ rfl
  apply (persistAndApplyEnded_alike r rfl none s t same).bind
  exact fun _ _ _ s t same => .pure rfl same

theorem removeRule_alike (id : Ulid) : Alike SameButLabels Eq (removeRule id) (removeRule id) := by
  intro s t same
  apply AlikeFrom.get
  apply AlikeFrom.check (.of_eq (same.engine.checkRemoval id IntervalKind.unlabelled_isRule)) same
  rintro r _ rfl
  apply (persistAndApplyEnded_alike r rfl none s t same).bind
  exact fun _ _ _ s t same => .pure rfl same

theorem removeHold_alike (id : Ulid) (reason : HoldEnd) :
    Alike SameButLabels Eq (removeHold id reason) (removeHold id reason) := by
  intro s t same
  apply AlikeFrom.get
  apply AlikeFrom.check (.of_eq (same.engine.resolveEnding id IntervalKind.unlabelled_isHold)) same
  rintro ⟨r, span⟩ _ rfl
  apply (persistAndApplyEnded_alike r rfl (some ⟨span, some reason, none⟩) s t same).bind
  exact fun _ _ _ s t same => .pure rfl same

theorem cancelBooking_alike (id : Ulid) : Alike SameButLabels Eq (cancelBooking id) (cancelBooking id) := by
  intro s t same
  apply AlikeFrom.get
  apply AlikeFrom.check (.of_eq (same.engine.resolveEnding id IntervalKind.unlabelled_isBooking)) same
  rintro ⟨r, span⟩ _ rfl
  apply (persistAndApplyEnded_alike r rfl (some ⟨span, none, none⟩) s t same).bind
  exact fun _ _ _ s t same => .pure rfl same

theorem placeHold_alike (id r : Ulid) (span : Span) (expiresAt : Ms) (limit : Nat) :
    Alike SameButLabels Eq (placeHoldOffering id r span expiresAt limit) (placeHoldOffering id r span expiresAt limit) := by
  intro s t same
  apply AlikeFrom.get
  apply AlikeFrom.check (.of_eq (same.engine.checkHold id r span expiresAt limit)) same
  rintro expiresAt _ rfl
  apply (lift_alike (onEngine_alike (Engine.watchHoldExpiry_alike expiresAt)) s t same).bind
  exact fun _ _ _ => lift_alike (persistEarlyOne_alike r rfl)

theorem confirmBooking_alike (id r : Ulid) (span : Span) {label label' : Option String} (limit : Nat)
    (fits : validateLabel label = .ok ()) (fits' : validateLabel label' = .ok ()) :
    Alike SameButLabels Eq (confirmBookingOffering id r span label limit)
      (confirmBookingOffering id r span label' limit) := by
  intro s t same
  apply AlikeFrom.get
  apply AlikeFrom.check (.of_eq (same.engine.checkBooking id r span limit fits fits')) same
  rintro _ _ _
  have record : (Event.bookingConfirmed id r span label).SameButLabel (.bookingConfirmed id r span label') := rfl
  exact lift_alike (persistEarlyOne_alike r record) s t same

theorem commitHolds_alike {commits commits' : List (Ulid × Ulid × Option String)}
    (each : List.Forall₂ Engine.SameCommit commits commits') (limit : Nat) :
    Alike SameButLabels Eq (commitHoldsOffering commits limit) (commitHoldsOffering commits' limit) := by
  intro s t same
  unfold commitHoldsOffering
  have empty : commits.isEmpty = commits'.isEmpty := by cases each <;> rfl
  rw [empty]
  cases commits'.isEmpty with
  | true => exact .pure rfl same
  | false =>
      apply AlikeFrom.get
      apply AlikeFrom.check (same.engine.checkCommits each limit) same
      rintro ⟨rids, entries⟩ ⟨_, entries'⟩ ⟨rfl, both⟩
      have record : (Event.holdsCommitted entries).SameButLabel (.holdsCommitted entries') := by
        apply congrArg Event.holdsCommitted
        rw [← List.forall₂_eq_eq_eq, List.forall₂_map_left_iff, List.forall₂_map_right_iff]
        exact both
      apply AlikeFrom.get
      rw [announceCommit_same same.engine.store both]
      exact lift_alike (persistEarly_alike _ (.cons record .nil) _) s t same

theorem batchConfirmBookings_alike {bookings bookings' : List (Ulid × Ulid × Span × Option String)}
    (each : List.Forall₂ Engine.SameBooking bookings bookings') :
    Alike SameButLabels Eq (batchConfirmBookings bookings) (batchConfirmBookings bookings') := by
  intro s t same
  unfold batchConfirmBookings
  have empty : bookings.isEmpty = bookings'.isEmpty := by cases each <;> rfl
  have rids : bookings.map (·.2.1) = bookings'.map (·.2.1) := by
    rw [← List.forall₂_eq_eq_eq, List.forall₂_map_left_iff, List.forall₂_map_right_iff]
    exact each.imp fun a b same => congrArg (·.2.1) same.booking
  have events : List.Forall₂ Event.SameButLabel
      (bookings.map fun b => Event.bookingConfirmed b.1 b.2.1 b.2.2.1 b.2.2.2)
      (bookings'.map fun b => .bookingConfirmed b.1 b.2.1 b.2.2.1 b.2.2.2) := by
    rw [List.forall₂_map_left_iff, List.forall₂_map_right_iff]
    exact each.imp fun a b same => congrArg (fun b => Event.bookingConfirmed b.1 b.2.1 b.2.2 none) same.booking
  rw [empty, rids]
  cases bookings'.isEmpty with
  | true => exact .pure rfl same
  | false =>
      apply AlikeFrom.get
      apply AlikeFrom.check (.of_eq (same.engine.checkBookings each)) same
      rintro _ _ _
      apply AlikeFrom.get
      rw [announceEach_same same.engine.store events]
      exact persistEarly_alike _ events _ s t same

theorem batchPlaceHolds_alike (holds : List (Ulid × Ulid × Span × Ms)) :
    Alike SameButLabels Eq (batchPlaceHolds holds) (batchPlaceHolds holds) := by
  intro s t same
  apply AlikeFrom.get
  have expiries : s.holdExpiries holds = t.holdExpiries holds := by
    simp only [Engine.holdExpiries, same.engine.holdExpiry]
  apply AlikeFrom.check (.of_eq expiries) same
  rintro clamped _ rfl
  cases (clamped.map (·.2.2.2)).min? with
  | none => exact .pure rfl same
  | some earliest =>
      apply AlikeFrom.get
      apply AlikeFrom.check (.of_eq (same.engine.admitBatch _)) same
      rintro _ _ _
      apply (onEngine_alike (Engine.watchHoldExpiry_alike earliest) s t same).bind
      rintro _ _ _ s t same
      have events : List.Forall₂ Event.SameButLabel
          (clamped.map fun h => Event.holdPlaced h.1 h.2.1 h.2.2.1 h.2.2.2) _ := List.forall₂_same.mpr fun _ _ => rfl
      apply AlikeFrom.get
      rw [announceEach_same same.engine.store events]
      exact persistEarly_alike _ events _ s t same

end Operations

end NotifyingEngine

/-! ## Runs -/

namespace Op

/-- The operation without booking labels. -/
def unlabelled : Op → Op
  | commitHolds commits offerLimit => commitHolds (commits.map fun c => (c.1, c.2.1, none)) offerLimit
  | confirmBooking id resourceId span _ offerLimit => confirmBooking id resourceId span none offerLimit
  | batchConfirmBookings bookings => batchConfirmBookings (bookings.map fun b => (b.1, b.2.1, b.2.2.1, none))
  | other => other

/-- The booking labels it gives. -/
def labels : Op → List (Option String)
  | commitHolds commits _ => commits.map (·.2.2)
  | confirmBooking _ _ _ label _ => [label]
  | batchConfirmBookings bookings => bookings.map (·.2.2.2)
  | _ => []

/-- Every label is within the limit. -/
def LabelsFit (o : Op) : Prop := ∀ label ∈ o.labels, ∀ text ∈ label, text.utf8ByteSize ≤ maxLabelLen

end Op

theorem validateLabel_fits {label : Option String} (fits : ∀ text ∈ label, text.utf8ByteSize ≤ maxLabelLen) :
    validateLabel label = .ok () := by
  cases label with
  | none => rfl
  | some text => exact if_neg (Nat.not_lt.mpr (fits text rfl))

/-- Requests that are the same without their labels, when the labels fit. -/
theorem forall₂_fits {α β : Type} {view : α → β} {label : α → Option String} {as bs : List α}
    (views : as.map view = bs.map view) (fit : ∀ text ∈ as.map label, validateLabel text = .ok ())
    (fit' : ∀ text ∈ bs.map label, validateLabel text = .ok ()) :
    List.Forall₂ (fun a b => view a = view b ∧ validateLabel (label a) = .ok () ∧ validateLabel (label b) = .ok ()) as bs := by
  rw [← List.forall₂_eq_eq_eq, List.forall₂_map_left_iff, List.forall₂_map_right_iff] at views
  induction views with
  | nil => exact .nil
  | cons first _ ih =>
      simp only [List.map_cons, List.forall_mem_cons] at fit fit'
      exact .cons ⟨first, fit.1, fit'.1⟩ (ih fit.2 fit'.2)

namespace NotifyingEngine

/-- An operation that gives no label. -/
theorem perform_labelFree (o : Op) (free : o.labels = []) : Alike SameButLabels Eq (perform o) (perform o) := by
  have removed : ∀ {x : NotifyM Ulid}, Alike SameButLabels Eq x x →
      Alike SameButLabels Eq (liftM x >>= fun r => pure (some r) : NotifyOfferM (Option Ulid))
        (liftM x >>= fun r => pure (some r)) :=
    fun inner => (lift_alike inner).bind fun _ _ same _ _ states => .pure (congrArg some same) states
  cases o with
  | createResource id parentId name capacity bufferAfter =>
      exact return_alike (createResource_alike id parentId name capacity bufferAfter)
  | batchCreateResources resources => exact return_alike (batchCreateResources_alike resources)
  | deleteResource id => exact return_alike (deleteResource_alike id)
  | updateResource id name capacity bufferAfter => exact return_alike (updateResource_alike id name capacity bufferAfter)
  | addRule id r span blocking => exact return_alike (addRule_alike id r span.1 blocking)
  | batchAddRules rules => exact return_alike (batchAddRules_alike _)
  | updateRule id span blocking => exact removed (updateRule_alike id span.1 blocking)
  | removeRule id => exact removed (removeRule_alike id)
  | placeHold id r span expiresAt limit =>
      exact (placeHold_alike id r span.1 expiresAt limit).bind fun _ _ _ _ _ states => .pure rfl states
  | batchPlaceHolds holds => exact return_alike (batchPlaceHolds_alike _)
  | releaseHold id => exact removed (removeHold_alike id .released)
  | expireHold id => exact removed (removeHold_alike id .expired)
  | commitHolds commits limit =>
      obtain rfl := List.map_eq_nil_iff.mp free
      exact (commitHolds_alike .nil limit).bind fun _ _ _ _ _ states => .pure rfl states
  | confirmBooking => cases free
  | batchConfirmBookings bookings =>
      obtain rfl := List.map_eq_nil_iff.mp free
      exact return_alike (batchConfirmBookings_alike .nil)
  | cancelBooking id => exact removed (cancelBooking_alike id)

/-- An operation under any labels that fit. -/
theorem perform_alike {o o' : Op} (same : o.unlabelled = o'.unlabelled) (fit : o.LabelsFit) (fit' : o'.LabelsFit) :
    Alike SameButLabels Eq (perform o) (perform o') := by
  have fits : ∀ label ∈ o.labels, validateLabel label = .ok () := fun label inside => validateLabel_fits (fit label inside)
  have fits' : ∀ label ∈ o'.labels, validateLabel label = .ok () := fun label inside => validateLabel_fits (fit' label inside)
  cases o with
  | commitHolds commits limit =>
      cases o' <;> simp only [Op.unlabelled, reduceCtorEq, Op.commitHolds.injEq] at same
      obtain ⟨views, rfl⟩ := same
      have each := (forall₂_fits views fits fits').imp fun a b both =>
        (⟨congrArg (·.1) both.1, congrArg (·.2.1) both.1, both.2.1, both.2.2⟩ : Engine.SameCommit a b)
      exact (commitHolds_alike each limit).bind fun _ _ _ _ _ states => .pure rfl states
  | confirmBooking id r span label limit =>
      cases o' <;> simp only [Op.unlabelled, reduceCtorEq, Op.confirmBooking.injEq] at same
      obtain ⟨rfl, rfl, rfl, -, rfl⟩ := same
      have booked := confirmBooking_alike id r span.1 limit (fits _ List.mem_cons_self) (fits' _ List.mem_cons_self)
      exact booked.bind fun _ _ _ _ _ states => .pure rfl states
  | batchConfirmBookings bookings =>
      cases o' <;> simp only [Op.unlabelled, reduceCtorEq, Op.batchConfirmBookings.injEq] at same
      have each := (forall₂_fits same fits fits').imp fun a b both =>
        (⟨congrArg (fun b => (b.1, b.2.1, b.2.2.1.1)) both.1, both.2.1, both.2.2⟩ :
          Engine.SameBooking (a.1, a.2.1, a.2.2.1.1, a.2.2.2) (b.1, b.2.1, b.2.2.1.1, b.2.2.2))
      rw [← List.forall₂_map_right_iff, ← List.forall₂_map_left_iff] at each
      exact return_alike (batchConfirmBookings_alike each)
  | _ =>
      cases o' <;> simp only [Op.unlabelled, reduceCtorEq] at same
      cases same
      exact perform_labelFree _ rfl

/-- A step without booking labels. -/
def Step.unlabelled : Step → Step
  | .op o => .op o.unlabelled
  | other => other

/-- Every label is within the limit. -/
def Step.LabelsFit : Step → Prop
  | .op o => o.LabelsFit
  | _ => True

/-- One step under any labels that fit. -/
theorem step_same {s t : NotifyingEngine} (same : s.SameButLabels t) {x y : Step} (steps : x.unlabelled = y.unlabelled)
    (fit : x.LabelsFit) (fit' : y.LabelsFit) : (s.step x).1 = (t.step y).1 ∧ (s.step x).2.SameButLabels (t.step y).2 := by
  have clock : s.clock = t.clock := same.engine.clock
  have stores : s.store.SameButLabels t.store := same.engine.store
  cases x with
  | op o =>
      cases y <;> simp only [Step.unlabelled, reduceCtorEq, Step.op.injEq] at steps
      have ⟨answers, states⟩ := perform_alike steps fit fit' s t same
      exact ⟨congrArg Answer.verdict answers.eq, states⟩
  | availability r queryStart queryEnd minDurationMs =>
      cases y <;> simp only [Step.unlabelled, reduceCtorEq] at steps
      cases steps
      refine ⟨congrArg Answer.free ?_, same⟩
      rw [clock, stores.computeAvailability]
  | availabilityMulti ids queryStart queryEnd minDurationMs =>
      cases y <;> simp only [Step.unlabelled, reduceCtorEq] at steps
      cases steps
      refine ⟨congrArg Answer.freeEach ?_, same⟩
      rw [clock, stores.getAvailabilityMulti]
  | multiAvailability ids queryStart queryEnd minAvailable minDurationMs =>
      cases y <;> simp only [Step.unlabelled, reduceCtorEq] at steps
      cases steps
      refine ⟨congrArg Answer.free ?_, same⟩
      rw [clock, stores.computeMultiAvailability]
  | tick ms =>
      cases y <;> simp only [Step.unlabelled, reduceCtorEq] at steps
      cases steps
      exact ⟨rfl, { same.engine with clock := congrArg (· + (ms : Ms)) clock }, same.notify⟩
  | fault what =>
      cases y <;> simp only [Step.unlabelled, reduceCtorEq] at steps
      cases steps
      exact ⟨rfl, { same.engine with flushFault := rfl }, same.notify⟩
  | subscribe r =>
      cases y <;> simp only [Step.unlabelled, reduceCtorEq] at steps
      cases steps
      exact ⟨rfl, same.engine, congrArg (·.subscribe r) same.notify⟩
  | gc now retentionMs =>
      cases y <;> simp only [Step.unlabelled, reduceCtorEq] at steps
      cases steps
      exact ⟨rfl, Engine.gcPastIntervals_same same.engine now retentionMs, same.notify⟩
  | compact order =>
      cases y <;> simp only [Step.unlabelled, reduceCtorEq] at steps
      cases steps
      exact ⟨rfl, Engine.compactWal_same same.engine order, same.notify⟩

theorem run_same {s t : NotifyingEngine} (same : s.SameButLabels t) {steps steps' : List Step}
    (unlabelled : steps.map Step.unlabelled = steps'.map Step.unlabelled) (fit : ∀ x ∈ steps, x.LabelsFit)
    (fit' : ∀ y ∈ steps', y.LabelsFit) :
    (run steps s).1 = (run steps' t).1 ∧ (run steps s).2.SameButLabels (run steps' t).2 := by
  induction steps generalizing s t steps' with
  | nil =>
      obtain rfl := List.map_eq_nil_iff.mp unlabelled.symm
      exact ⟨rfl, same⟩
  | cons x rest ih =>
      cases steps' with
      | nil => cases unlabelled
      | cons y rest' =>
          obtain ⟨first, later⟩ := List.cons.inj unlabelled
          obtain ⟨fitHere, fitLater⟩ := List.forall_mem_cons.mp fit
          obtain ⟨fitHere', fitLater'⟩ := List.forall_mem_cons.mp fit'
          obtain ⟨answer, states⟩ := step_same same first fitHere fitHere'
          obtain ⟨answers, states⟩ := ih states later fitLater fitLater'
          exact ⟨congrArg₂ List.cons answer answers, states⟩

/-- Labels do not leak: two runs of the same steps under other labels give the same answers, send the same notices
    on the same channels, and with them the same payloads. -/
theorem labels_do_not_leak {s t : NotifyingEngine} (same : s.SameButLabels t) {steps steps' : List Step}
    (unlabelled : steps.map Step.unlabelled = steps'.map Step.unlabelled) (fit : ∀ x ∈ steps, x.LabelsFit)
    (fit' : ∀ y ∈ steps', y.LabelsFit) (json : Notice.Json) :
    (run steps s).1 = (run steps' t).1 ∧ (run steps s).2.notify.sent = (run steps' t).2.notify.sent ∧
      ((run steps s).2.notify.sent.map fun sent => (sent.1, sent.2.payload json)) =
        (run steps' t).2.notify.sent.map fun sent => (sent.1, sent.2.payload json) := by
  obtain ⟨answers, states⟩ := run_same same unlabelled fit fit'
  exact ⟨answers, congrArg NoticeHub.sent states.notify,
    congrArg (·.sent.map fun sent => (sent.1, sent.2.payload json)) states.notify⟩

/-- A booking made and given back, under a label. -/
def labelledVisit (label : String) : List Step :=
  [.op (.createResource 1 none none 1 none), .subscribe 1, .op (.confirmBooking 7 1 ⟨⟨100, 200⟩, by decide⟩ (some label) 2),
    .op (.confirmBooking 8 1 ⟨⟨150, 250⟩, by decide⟩ none 2), .availability 1 0 1000 none, .op (.cancelBooking 7)]

theorem labelledVisit_fits {label : String} (fits : label.utf8ByteSize ≤ maxLabelLen) :
    ∀ x ∈ labelledVisit label, x.LabelsFit := by
  simp [labelledVisit, Step.LabelsFit, Op.LabelsFit, Op.labels, fits]

theorem labelledVisit_unlabelled (label label' : String) :
    (labelledVisit label).map Step.unlabelled = (labelledVisit label').map Step.unlabelled := rfl

theorem SameButLabels.refl (s : NotifyingEngine) : s.SameButLabels s := ⟨⟨.refl _, rfl, rfl, rfl, rfl, rfl, rfl⟩, rfl⟩

theorem labelledVisit_private :
    (run (labelledVisit "surgery") ⟨Engine.start 50 60, ∅, []⟩).1 =
      (run (labelledVisit "checkup") ⟨Engine.start 50 60, ∅, []⟩).1 := by
  have fits : "surgery".utf8ByteSize ≤ maxLabelLen := by decide
  have fits' : "checkup".utf8ByteSize ≤ maxLabelLen := by decide
  have both := labels_do_not_leak (.refl ⟨Engine.start 50 60, ∅, []⟩) (labelledVisit_unlabelled "surgery" "checkup")
    (labelledVisit_fits fits) (labelledVisit_fits fits') ⟨fun _ => .ok "", fun _ => .ok ""⟩
  exact both.1

end NotifyingEngine

end Deltat
