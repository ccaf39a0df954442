import Deltat.NeverDoubleBook

/-! # Commits of several holds

A commit weighs every hold against the state before it. Committed one after another, each
hold meets the bookings made of the ones before. The two agree as long as the holds that
have lapsed, which the earlier weighing does not count, fit beside the live allocations.
-/

namespace Deltat

open Lib Lib.Outcome Conflict Limits

namespace ResourceState

variable {rs rs' : ResourceState} {now t : Ms} {hold booking : Interval}

/-- Of the holds that a list of ids names, those that have lapsed and occupy the instant. -/
def lapsedAt (rs : ResourceState) (now : Ms) (ids : List Ulid) (t : Ms) : Nat :=
  rs.intervals.countP fun i =>
    i.kind.isHold && !i.kind.live now && ids.contains i.id && rs.occupies i.span t

/-- An interval in front of those with other ids. -/
theorem perm_extract (nodup : (rs.intervals.map (·.id)).Nodup) {i : Interval} (inside : i ∈ rs.intervals) :
    rs.intervals.Perm (i :: rs.intervals.filter fun j => decide (j.id ≠ i.id)) := by
  obtain ⟨before, after, split⟩ := List.append_of_mem inside
  rw [split] at nodup ⊢
  have moved : (before ++ i :: after).Perm (i :: (before ++ after)) := List.perm_middle
  have distinct := (moved.map (·.id)).nodup_iff.mp nodup
  rw [List.map_cons, List.nodup_cons] at distinct
  have kept : (before ++ after).filter (fun j => decide (j.id ≠ i.id)) = before ++ after :=
    List.filter_eq_self.mpr fun j inRest => decide_eq_true fun same =>
      distinct.1 (same ▸ List.mem_map_of_mem inRest)
  have filtered := moved.filter fun j => decide (j.id ≠ i.id)
  rw [List.filter_cons_of_neg (by simp), kept] at filtered
  exact moved.trans (filtered.symm.cons i)

/-- One resource before and after a hold on it became a booking. -/
structure Swapped (rs rs' : ResourceState) (hold booking : Interval) : Prop where
  isHold : hold.kind.isHold = true
  isBooking : ∃ label, booking.kind = .booking label
  sameSpan : booking.span = hold.span
  capacity : rs'.capacity = rs.capacity
  buffer : rs'.buffer = rs.buffer
  others : ∃ others, rs.intervals.Perm (hold :: others) ∧ rs'.intervals.Perm (booking :: others)

namespace Swapped

variable (swapped : rs.Swapped rs' hold booking)
include swapped

theorem occupies (s : Span) : rs'.occupies s t = rs.occupies s t := by
  simp only [ResourceState.occupies, swapped.buffer]

/-- What a swap changes of any count. -/
theorem countP (p : Interval → Bool) :
    rs'.intervals.countP p + (if p hold then 1 else 0) = rs.intervals.countP p + if p booking then 1 else 0 := by
  obtain ⟨others, before, after⟩ := swapped.others
  rw [before.countP_eq, after.countP_eq, List.countP_cons, List.countP_cons]
  omega

theorem booking_live : booking.kind.live now = true := by
  obtain ⟨label, kind⟩ := swapped.isBooking
  rw [kind]
  rfl

theorem booking_notHold : booking.kind.isHold = false := by
  obtain ⟨label, kind⟩ := swapped.isBooking
  rw [kind]
  rfl

/-- A lapsed hold comes to life as a booking, for every other allocation. -/
theorem othersAt {k : Option Ulid} (notHold : some hold.id ≠ k) (notBooking : some booking.id ≠ k) :
    rs'.othersAt now k t =
      rs.othersAt now k t + if !hold.kind.live now && rs.occupies hold.span t then 1 else 0 := by
  have count := swapped.countP fun i => decide (some i.id ≠ k) && i.kind.live now && rs.occupies i.span t
  simp only [ne_eq, notHold, notBooking, not_false_eq_true, decide_true, Bool.true_and,
    swapped.booking_live, swapped.sameSpan] at count
  unfold ResourceState.othersAt
  simp only [swapped.occupies]
  revert count
  cases hold.kind.live now <;> cases rs.occupies hold.span t <;> simp

theorem liveAt : rs'.liveAt now t =
    rs.liveAt now t + if !hold.kind.live now && rs.occupies hold.span t then 1 else 0 := by
  rw [← othersAt_none, ← othersAt_none]
  exact swapped.othersAt (by simp) (by simp)

/-- The lapsed holds of a list are those of its tail and, if it has lapsed, the first. -/
theorem lapsedAt {ids : List Ulid} (nodup : (rs.intervals.map (·.id)).Nodup) :
    rs.lapsedAt now (hold.id :: ids) t =
      rs'.lapsedAt now ids t + if !hold.kind.live now && rs.occupies hold.span t then 1 else 0 := by
  obtain ⟨others, before, after⟩ := swapped.others
  have distinct := (before.map (·.id)).nodup_iff.mp nodup
  rw [List.map_cons, List.nodup_cons] at distinct
  unfold ResourceState.lapsedAt
  simp only [swapped.occupies]
  rw [before.countP_eq, after.countP_eq, List.countP_cons, List.countP_cons]
  have same : others.countP (fun i => i.kind.isHold && !i.kind.live now &&
      (hold.id :: ids).contains i.id && rs.occupies i.span t) =
      others.countP (fun i => i.kind.isHold && !i.kind.live now && ids.contains i.id && rs.occupies i.span t) := by
    refine List.countP_congr fun i inside => ?_
    have apart : i.id ≠ hold.id := fun same => distinct.1 (same ▸ List.mem_map_of_mem inside)
    simp [apart]
  rw [same]
  simp [swapped.isHold, swapped.booking_notHold]

end Swapped

/-- An allocation counted with the others, and by itself if it is live. -/
theorem liveAt_own {i : Interval} (nodup : (rs.intervals.map (·.id)).Nodup) (inside : i ∈ rs.intervals)
    (covers : rs.occupies i.span t = true) :
    rs.liveAt now t = rs.othersAt now (some i.id) t + if i.kind.live now then 1 else 0 := by
  have perm := perm_extract nodup inside
  unfold liveAt othersAt
  have same : rs.intervals.countP (fun j => (j.kind.live now && rs.occupies j.span t) && decide (j.id ≠ i.id)) =
      rs.intervals.countP (fun j => decide (some j.id ≠ some i.id) && j.kind.live now && rs.occupies j.span t) :=
    List.countP_congr fun j _ => by
      simp only [Bool.and_eq_true, decide_eq_true_eq, ne_eq, Option.some.injEq]
      tauto
  rw [perm.countP_eq, List.countP_cons, List.countP_filter, same, covers, Bool.and_true]

/-- A resource before and after the turn of one hold, on it or elsewhere. `x` counts the
    allocation that a lapsed hold comes back as. -/
structure Turned (rs rs' : ResourceState) (now : Ms) (hold : Interval) (bookingId : Ulid) (x : Ms → Nat) :
    Prop where
  capacity : rs'.capacity = rs.capacity
  occupies : ∀ s t, rs'.occupies s t = rs.occupies s t
  live : ∀ t, rs'.liveAt now t = rs.liveAt now t + x t
  others : ∀ k t, k ≠ hold.id → k ≠ bookingId → rs'.othersAt now (some k) t = rs.othersAt now (some k) t + x t
  lapsed : ∀ ids t, rs.lapsedAt now (hold.id :: ids) t = rs'.lapsedAt now ids t + x t
  holds : ∀ i, i.kind.isHold = true → i.id ≠ hold.id → (i ∈ rs'.intervals ↔ i ∈ rs.intervals)
  ids : ∀ i ∈ rs'.intervals, i ∈ rs.intervals ∨ i.id = bookingId
  lapses : ∀ t, 0 < x t → x t = 1 ∧ hold ∈ rs.intervals ∧ hold.kind.live now = false ∧
    rs.occupies hold.span t = true

theorem Swapped.turned (swapped : rs.Swapped rs' hold booking) (nodup : (rs.intervals.map (·.id)).Nodup) :
    rs.Turned rs' now hold booking.id
      (fun t => if !hold.kind.live now && rs.occupies hold.span t then 1 else 0) where
  capacity := swapped.capacity
  occupies s t := swapped.occupies s
  live t := swapped.liveAt
  others k t apart free := swapped.othersAt (by simpa using Ne.symm apart) (by simpa using Ne.symm free)
  lapsed ids t := swapped.lapsedAt nodup
  holds i isHold apart := by
    obtain ⟨others, before, after⟩ := swapped.others
    have notHold : i ≠ hold := fun same => apart (same ▸ rfl)
    have notBooking : i ≠ booking := by
      rintro rfl
      rw [swapped.booking_notHold] at isHold
      cases isHold
    simp [before.mem_iff, after.mem_iff, notHold, notBooking]
  ids i inside := by
    obtain ⟨others, before, after⟩ := swapped.others
    rcases List.mem_cons.mp (after.mem_iff.mp inside) with rfl | other
    · exact .inr rfl
    · exact .inl (before.mem_iff.mpr (List.mem_cons_of_mem _ other))
  lapses t some := by
    obtain ⟨others, before, _⟩ := swapped.others
    split at some
    · next both =>
        simp only [Bool.and_eq_true, Bool.not_eq_true'] at both
        exact ⟨if_pos (by simp [both]), before.mem_iff.mpr List.mem_cons_self, both⟩
    · cases some

/-- The turn of a hold leaves the resources it is not on as they are. -/
theorem Turned.elsewhere {bookingId : Ulid} (absent : hold.id ∉ rs.intervals.map (·.id)) :
    rs.Turned rs now hold bookingId (fun _ => 0) where
  capacity := rfl
  occupies _ _ := rfl
  live _ := rfl
  others _ _ _ _ := rfl
  lapsed ids t := by
    refine List.countP_congr fun i inside => ?_
    have apart : i.id ≠ hold.id := fun same => absent (same ▸ List.mem_map_of_mem inside)
    simp [apart]
  holds _ _ _ := .rfl
  ids _ inside := .inl inside
  lapses t some := by cases some

namespace Turned

variable {bookingId : Ulid} {x : Ms → Nat} {ids : List Ulid} (turned : rs.Turned rs' now hold bookingId x)
include turned

/-- The lapsed holds of a list fit exactly when, the first being admissible, those of its
    tail fit after the turn of the first. -/
theorem fit_iff (nodup : (rs.intervals.map (·.id)).Nodup)
    (room : hold ∈ rs.intervals → ∀ t, rs.occupies hold.span t = true →
      rs.othersAt now (some hold.id) t < rs.capacity.toNat) :
    (∀ t, 0 < rs.lapsedAt now (hold.id :: ids) t →
      rs.liveAt now t + rs.lapsedAt now (hold.id :: ids) t ≤ rs.capacity.toNat) ↔
    ∀ t, 0 < rs'.lapsedAt now ids t → rs'.liveAt now t + rs'.lapsedAt now ids t ≤ rs'.capacity.toNat := by
  refine forall_congr' fun t => ?_
  rw [turned.lapsed, turned.live, turned.capacity]
  constructor
  · intro fit some
    have := fit (by omega)
    omega
  · intro fit some
    rcases Nat.eq_zero_or_pos (rs'.lapsedAt now ids t) with none | others
    · -- Only the first hold has lapsed here: its own check has counted everything else.
      obtain ⟨one, inside, lapsed, covers⟩ := turned.lapses t (by omega)
      have own : rs.liveAt now t = rs.othersAt now (.some hold.id) t + if hold.kind.live now then 1 else 0 :=
        liveAt_own nodup inside covers
      have below := room inside t covers
      simp only [lapsed, Bool.false_eq_true, ↓reduceIte] at own
      omega
    · have := fit others
      omega

/-- After the turn of a hold, the hold `i` still has room. -/
theorem room (nodup : (rs.intervals.map (·.id)).Nodup) {i : Interval} (inside : i ∈ rs.intervals)
    (isHold : i.kind.isHold = true) (member : i.id ∈ ids) (apart : i.id ≠ hold.id) (free : i.id ≠ bookingId)
    {t : Ms} (covers : rs.occupies i.span t = true)
    (fit : 0 < rs.lapsedAt now (hold.id :: ids) t →
      rs.liveAt now t + rs.lapsedAt now (hold.id :: ids) t ≤ rs.capacity.toNat)
    (before : rs.othersAt now (some i.id) t < rs.capacity.toNat) :
    rs'.othersAt now (some i.id) t < rs'.capacity.toNat := by
  rw [turned.others i.id t apart free, turned.capacity]
  rcases Nat.eq_zero_or_pos (x t) with none | some
  · omega
  · have own : rs.liveAt now t = rs.othersAt now (.some i.id) t + if i.kind.live now then 1 else 0 :=
      liveAt_own nodup inside covers
    have lapsed := turned.lapsed ids t
    have fits := fit (by omega)
    have one := (turned.lapses t some).1
    cases alive : i.kind.live now with
    | true =>
        simp only [alive, ↓reduceIte] at own
        omega
    | false =>
        have counted : 0 < rs'.lapsedAt now ids t := List.countP_pos_iff.mpr
          ⟨i, (turned.holds i isHold apart).mpr inside, by simp [isHold, alive, member, turned.occupies, covers]⟩
        simp only [alive, Bool.false_eq_true, ↓reduceIte] at own
        omega

end Turned

end ResourceState

namespace Engine

variable {e e' : Engine} {commits : List (Ulid × Ulid × Option String)}

/-- The same entries committed one after another. -/
def commitInTurn (commits : List (Ulid × Ulid × Option String)) : EngineM Unit :=
  commits.forM fun c => commitHold c.1 c.2.1 c.2.2

/-- An id names a hold on a resource. -/
structure HoldOn (e : Engine) (id r : Ulid) (rs : ResourceState) (hold : Interval) : Prop where
  present : e.store.getResource r = some rs
  inside : hold ∈ rs.intervals
  named : hold.id = id
  isHold : hold.kind.isHold = true

/-- An id names a hold, and the other live allocations leave room for it at every instant
    of its footprint. -/
def Admissible (e : Engine) (id : Ulid) : Prop :=
  ∃ r rs hold, e.HoldOn id r rs hold ∧
    ∀ t, rs.occupies hold.span t = true → rs.othersAt e.clock (some id) t < rs.capacity.toNat

/-- Wherever named holds have lapsed, they fit beside the live allocations. -/
def LapsedFit (e : Engine) (ids : List Ulid) : Prop :=
  ∀ r rs, e.store.getResource r = some rs → ∀ t, 0 < rs.lapsedAt e.clock ids t →
    rs.liveAt e.clock t + rs.lapsedAt e.clock ids t ≤ rs.capacity.toNat

/-- A list of entries that only the holds themselves can make fail. -/
structure ValidCommits (e : Engine) (commits : List (Ulid × Ulid × Option String)) : Prop where
  size : commits.length ≤ maxBatchSize
  holdsNodup : (commits.map (·.1)).Nodup
  bookingsNodup : (commits.map (·.2.1)).Nodup
  unused : ∀ c ∈ commits, e.store.getResourceForEntity c.2.1 = none
  labels : ∀ c ∈ commits, validateLabel c.2.2 = .ok ()

/-- The entry recorded for one element of the list. -/
def Entry (e : Engine) (c : Ulid × Ulid × Option String) (entry : HoldCommit) : Prop :=
  ∃ rs hold, e.HoldOn c.1 entry.resourceId rs hold ∧
    entry = ⟨c.1, c.2.1, entry.resourceId, hold.span, c.2.2⟩

section Holds

variable {id r : Ulid} {rs : ResourceState} {hold : Interval}

theorem HoldOn.located (h : e.Healthy) (on : e.HoldOn id r rs hold) :
    e.store.getResourceForEntity id = some r :=
  (h.consistent.entities id r).mpr ⟨rs, on.present, on.named ▸ List.mem_map_of_mem on.inside⟩

theorem HoldOn.ne_unused (h : e.Healthy) (on : e.HoldOn id r rs hold) {bookingId : Ulid}
    (fresh : e.store.getResourceForEntity bookingId = none) : hold.id ≠ bookingId := by
  intro same
  have taken := on.located h
  rw [← on.named, same, fresh] at taken
  cases taken

theorem HoldOn.found (h : e.Healthy) (on : e.HoldOn id r rs hold) :
    findIntervalOfKind rs id IntervalKind.isHold = .ok hold := by
  have nodup := (h.consistent.wellFormed r rs on.present).idsNodup
  have some : (rs.intervals.find? (·.id = id)).isSome := by
    rw [List.find?_isSome]
    exact ⟨hold, on.inside, by simp [on.named]⟩
  obtain ⟨i, first⟩ := Option.isSome_iff_exists.mp some
  have same : i = hold := List.inj_on_of_nodup_map nodup (List.mem_of_find?_eq_some first) on.inside <| by
    rw [on.named]
    simpa using List.find?_some first
  exact findIntervalOfKind_ok.mpr ⟨same ▸ first, on.isHold⟩

/-- An id names at most one hold. -/
theorem HoldOn.unique (h : e.Healthy) (on : e.HoldOn id r rs hold) {r' : Ulid} {rs' : ResourceState}
    {hold' : Interval} (also : e.HoldOn id r' rs' hold') : r = r' ∧ rs = rs' ∧ hold = hold' := by
  obtain rfl : r = r' := Option.some.inj ((on.located h).symm.trans (also.located h))
  obtain rfl : rs = rs' := Option.some.inj (on.present.symm.trans also.present)
  have same := (on.found h).symm.trans (also.found h)
  exact ⟨rfl, rfl, by simpa using same⟩

/-- The check of one entry passes exactly on an admissible hold and a free booking id. -/
theorem admitsCommit_iff (h : e.Healthy) {c : Ulid × Ulid × Option String} {entry : HoldCommit}
    (unused : e.store.getResourceForEntity c.2.1 = none) :
    (e.store.getResourceForEntity c.1 = some r ∧ e.AdmitsCommit c.1 c.2.1 c.2.2 r entry) ↔
      e.Admissible c.1 ∧ e.Entry c entry ∧ entry.resourceId = r := by
  constructor
  · rintro ⟨_, guard, hold, present, found, _, noConflict, rfl⟩
    obtain ⟨inside, named, isHold⟩ := findIntervalOfKind_mem found
    have wf := h.consistent.wellFormed r guard present
    have room := (checkNoConflictExcluding_ok wf (wf.admitted hold inside).span).mp noConflict
    exact ⟨⟨r, guard, hold, ⟨present, inside, named, isHold⟩, room⟩,
      ⟨guard, hold, ⟨present, inside, named, isHold⟩, rfl⟩, rfl⟩
  · rintro ⟨⟨r', rs, hold, on, room⟩, ⟨rs', hold', also, recorded⟩, rfl⟩
    obtain ⟨rfl, rfl, rfl⟩ := on.unique h also
    have wf := h.consistent.wellFormed _ rs on.present
    exact ⟨on.located h, rs, hold, on.present, on.found h, unused,
      (checkNoConflictExcluding_ok wf (wf.admitted hold on.inside).span).mpr room, recorded⟩

end Holds

/-! ## All at once -/

/-- A commit of at least one hold is its check and then one record. -/
theorem exec_commitHolds (some : commits ≠ []) :
    exec (commitHolds commits) e =
      exec (ExceptT.adapt Refused.error
        (liftM (e.checkCommits commits 0) >>= fun checked =>
          ExceptT.adapt Refused.ofError
            (persistEarly (ascending checked.1) [.holdsCommitted checked.2]) :
              ExceptT Refused (StateM Engine) Unit)) e := by
  cases commits with
  | nil => exact absurd rfl some
  | cons c rest => rfl

theorem commitHolds_refused (some : commits ≠ []) {refused : Refused}
    (failed : e.checkCommits commits 0 = .error refused) :
    exec (commitHolds commits) e = (.error refused.error, e) := by
  rw [exec_commitHolds some, exec_adapt, failed, exec_bind_error (exec_check _ _)]
  rfl

/-- A commit whose check passes writes its entries as one record. -/
theorem commitHolds_wrote (h : e.Healthy) (some : commits ≠ []) {rids : List Ulid} {entries : List HoldCommit}
    (passed : e.checkCommits commits 0 = .ok (rids, entries)) :
    ∃ e', exec (commitHolds commits) e = (.ok (), e') ∧ e.Wrote e' [.holdsCommitted entries] := by
  obtain ⟨_, given, resources⟩ := checkCommits_admitted passed
  have admits : e.Admits [.holdsCommitted entries] := .commit passed
  have changes : ∀ ev ∈ [Event.holdsCommitted entries], ev.isChange := by simp [Event.isChange]
  have routed : ∀ ev ∈ [Event.holdsCommitted entries].flatMap Event.perResource,
      ∃ r ∈ ascending rids, ev.resourceId? = Option.some r := by
    intro ev inside
    rw [List.flatMap_singleton] at inside
    obtain ⟨c, member, isEvent⟩ := List.mem_flatMap.mp inside
    simp only [HoldCommit.events, List.mem_cons, List.not_mem_nil, or_false] at isEvent
    exact ⟨c.resourceId, mem_ascending.mpr (resources ▸ List.mem_map_of_mem member),
      by rcases isEvent with rfl | rfl <;> rfl⟩
  rw [exec_commitHolds some, exec_adapt, passed, exec_bind_ok (exec_check _ _), exec_adapt,
    exec_persistEarly h.running h.noFault]
  exact ⟨_, rfl, wrote_early h (ascending_nodup rids) changes routed (admits.allApply h changes)
    rfl rfl rfl rfl rfl⟩

theorem checkCommits_entries (h : e.Healthy) (valid : e.ValidCommits commits) {limit : Nat} {rids : List Ulid}
    {entries : List HoldCommit} (passed : e.checkCommits commits limit = .ok (rids, entries)) :
    List.Forall₂ (fun c entry => e.Admissible c.1 ∧ e.Entry c entry) commits entries := by
  obtain ⟨admitted, given, _⟩ := checkCommits_admitted passed
  have unused := valid.unused
  rw [← given] at unused ⊢
  rw [List.forall₂_map_left_iff, List.forall₂_same]
  intro entry member
  have passes := (admitsCommit_iff (c := (entry.holdId, entry.bookingId, entry.label)) h
    (unused _ (List.mem_map_of_mem member))).mp ⟨admitted.located entry member, admitted.admitted entry member⟩
  exact ⟨passes.1, passes.2.1⟩

/-- The check of a list passes exactly when every hold is admissible before the commit. -/
theorem checkCommits_iff (h : e.Healthy) (valid : e.ValidCommits commits) (limit : Nat) :
    (∃ rids entries, e.checkCommits commits limit = .ok (rids, entries)) ↔ ∀ c ∈ commits, e.Admissible c.1 := by
  constructor
  · rintro ⟨rids, entries, passed⟩
    have each := checkCommits_entries h valid passed
    intro c member
    obtain ⟨entry, admissible, _⟩ := exists_forall₂.mp ⟨entries, each⟩ c member
    exact admissible
  · intro admissible
    obtain ⟨rids, located⟩ := exists_forall₂.mpr fun c member =>
      have ⟨r, rs, hold, on, _⟩ := admissible c member
      show ∃ r, e.store.getResourceForEntity c.1 = some r from ⟨r, on.located h⟩
    have present : ∀ r ∈ rids, (e.store.getResource r).isSome := by
      intro r inside
      obtain ⟨c, located⟩ := exists_forall₂.mp ⟨commits, located.flip⟩ r inside
      obtain ⟨rs, present, _⟩ := (h.consistent.entities c.1 r).mp located
      rw [present]
      rfl
    obtain ⟨entries, admitted⟩ := exists_forall₂.mpr fun (row : (Ulid × Ulid × Option String) × Ulid) inside =>
      show ∃ entry, e.AdmitsCommit row.1.1 row.1.2.1 row.1.2.2 row.2 entry by
        have located := List.forall₂_zip located inside
        have member := (List.of_mem_zip inside).1
        obtain ⟨r, rs, hold, on, room⟩ := admissible _ member
        obtain rfl : r = row.2 := Option.some.inj ((on.located h).symm.trans located)
        have recorded : e.Entry row.1 ⟨row.1.1, row.1.2.1, row.2, hold.span, row.1.2.2⟩ := ⟨rs, hold, on, rfl⟩
        exact ⟨_, ((admitsCommit_iff h (valid.unused _ member)).mpr ⟨admissible _ member, recorded, rfl⟩).2⟩
    exact ⟨rids, entries, checkCommits_ok.mpr ⟨⟨valid.size, valid.labels, valid.holdsNodup, valid.bookingsNodup,
      located, present⟩, admitted⟩⟩

/-- All at once: the commit succeeds exactly when every hold is admissible before it. -/
theorem commitHolds_ok (h : e.Healthy) (valid : e.ValidCommits commits) :
    (exec (commitHolds commits) e).1 = .ok () ↔ ∀ c ∈ commits, e.Admissible c.1 := by
  by_cases some : commits = []
  · subst some
    exact ⟨fun _ c inside => absurd inside List.not_mem_nil, fun _ => rfl⟩
  · rw [← checkCommits_iff h valid 0]
    cases checked : e.checkCommits commits 0 with
    | error refused =>
        rw [commitHolds_refused some checked]
        simp
    | ok both =>
        obtain ⟨e', ran, _⟩ := commitHolds_wrote h some checked
        rw [ran]
        exact ⟨fun _ => ⟨both.1, both.2, rfl⟩, fun _ => rfl⟩

/-! ## One after another -/

/-- The commit of one hold swaps it for its booking and touches no other resource. -/
theorem swapped_of_wrote (h : e.Healthy) {entry : HoldCommit} {rs : ResourceState} {hold : Interval}
    (on : e.HoldOn entry.holdId entry.resourceId rs hold) (span : entry.span = hold.span)
    (admits : e.Admits [.holdsCommitted [entry]]) (wrote : e.Wrote e' [.holdsCommitted [entry]]) :
    (∃ rs', e'.store.getResource entry.resourceId = some rs' ∧
      rs.Swapped rs' hold ⟨entry.bookingId, entry.span, .booking entry.label⟩) ∧
      ∀ q, q ≠ entry.resourceId → e'.store.getResource q = e.store.getResource q := by
  have changes : ∀ ev ∈ [Event.holdsCommitted [entry]], ev.isChange := by simp [Event.isChange]
  have table : ∀ q, e'.store.getResource q =
      (e.store.getResource q).map ((own [.holdsCommitted [entry]] q).foldl ResourceState.applySingle) :=
    fun q => (wrote.table q).trans (Event.foldl_stepOn q changes (e.store.getResource q))
  simp only [own_commit] at table
  refine ⟨?_, fun q apart => ?_⟩
  · have found := table entry.resourceId
    rw [on.present, if_pos rfl, Option.map_some] at found
    obtain ⟨rs₀, present, _, accepts, apart⟩ := wrote.changed h admits changes found
    obtain rfl : rs = rs₀ := Option.some.inj (on.present.symm.trans present)
    rw [own_commit, if_pos rfl] at accepts apart
    have wf := h.consistent.wellFormed _ rs present
    have keeps : ∀ ev ∈ entry.events, ev.KeepsRoom := by
      intro ev inside
      simp only [HoldCommit.events, List.mem_cons, List.not_mem_nil, or_false] at inside
      rcases inside with rfl | rfl <;> exact fun _ => ⟨rfl, rfl⟩
    obtain ⟨capacity, bufferAfter⟩ := ResourceState.foldl_applySingle_room keeps rs
    have perm := (ResourceState.foldl_applySingle apart wf accepts).2
    refine ⟨_, found, on.isHold, ⟨_, rfl⟩, span, capacity, ?_, _,
      ResourceState.perm_extract wf.idsNodup on.inside, perm.trans (.of_eq ?_)⟩
    · unfold ResourceState.buffer
      rw [bufferAfter]
    · simp [HoldCommit.events, Event.adds, Event.removes, on.named]
  · rw [table, if_neg (Ne.symm apart)]
    simp

/-- Every named hold is admissible, and the lapsed ones fit together. -/
def Fits (e : Engine) (commits : List (Ulid × Ulid × Option String)) : Prop :=
  (∀ c ∈ commits, e.Admissible c.1) ∧ e.LapsedFit (commits.map (·.1))

/-- The engine before and after the turn of one hold. -/
structure Turn (e e' : Engine) (hold : Interval) (bookingId : Ulid) : Prop where
  healthy : e'.Healthy
  clock : e'.clock = e.clock
  before : ∀ q rs', e'.store.getResource q = some rs' → ∃ rs x, e.store.getResource q = some rs ∧
    rs.Turned rs' e.clock hold bookingId x
  after : ∀ q rs, e.store.getResource q = some rs → ∃ rs' x, e'.store.getResource q = some rs' ∧
    rs.Turned rs' e.clock hold bookingId x

theorem turn_of_wrote (h : e.Healthy) {entry : HoldCommit} {rs : ResourceState} {hold : Interval}
    (on : e.HoldOn entry.holdId entry.resourceId rs hold) (span : entry.span = hold.span)
    (admits : e.Admits [.holdsCommitted [entry]]) (wrote : e.Wrote e' [.holdsCommitted [entry]]) :
    e.Turn e' hold entry.bookingId := by
  obtain ⟨⟨rs', after, swapped⟩, elsewhere⟩ := swapped_of_wrote h on span admits wrote
  have nodup := (h.consistent.wellFormed _ rs on.present).idsNodup
  have absent : ∀ q rs, q ≠ entry.resourceId → e.store.getResource q = some rs →
      hold.id ∉ rs.intervals.map (·.id) := by
    intro q rs₁ apart present inside
    have here := (h.consistent.entities hold.id q).mpr ⟨rs₁, present, inside⟩
    rw [on.named, on.located h] at here
    exact apart (Option.some.inj here).symm
  refine ⟨wrote.healthy, wrote.clock, fun q rs₁ found => ?_, fun q rs₁ found => ?_⟩
  · by_cases same : q = entry.resourceId
    · subst same
      obtain rfl := Option.some.inj (after.symm.trans found)
      exact ⟨rs, _, on.present, swapped.turned nodup⟩
    · rw [elsewhere q same] at found
      exact ⟨rs₁, _, found, .elsewhere (absent q rs₁ same found)⟩
  · by_cases same : q = entry.resourceId
    · subst same
      obtain rfl := Option.some.inj (on.present.symm.trans found)
      exact ⟨rs', _, after, swapped.turned nodup⟩
    · exact ⟨rs₁, _, (elsewhere q same).trans found, .elsewhere (absent q rs₁ same found)⟩

section Turns

variable {hold : Interval} {bookingId : Ulid} (turn : e.Turn e' hold bookingId)
include turn

theorem Turn.holdOn_before {id q : Ulid} {rs' : ResourceState} {i : Interval} (apart : id ≠ hold.id)
    (on : e'.HoldOn id q rs' i) : ∃ rs x, e.HoldOn id q rs i ∧ rs.Turned rs' e.clock hold bookingId x := by
  obtain ⟨rs, x, present, turned⟩ := turn.before q rs' on.present
  exact ⟨rs, x, ⟨present, (turned.holds i on.isHold (on.named ▸ apart)).mp on.inside, on.named, on.isHold⟩, turned⟩

theorem Turn.holdOn_after {id q : Ulid} {rs : ResourceState} {i : Interval} (apart : id ≠ hold.id)
    (on : e.HoldOn id q rs i) : ∃ rs' x, e'.HoldOn id q rs' i ∧ rs.Turned rs' e.clock hold bookingId x := by
  obtain ⟨rs', x, present, turned⟩ := turn.after q rs on.present
  exact ⟨rs', x, ⟨present, (turned.holds i on.isHold (on.named ▸ apart)).mpr on.inside, on.named, on.isHold⟩, turned⟩

/-- The rest of a list is as valid after the turn of its first element. -/
theorem Turn.valid (h : e.Healthy) {c : Ulid × Ulid × Option String} (given : c.2.1 = bookingId)
    (valid : e.ValidCommits (c :: commits)) : e'.ValidCommits commits where
  size := (Nat.le_succ _).trans valid.size
  holdsNodup := (List.nodup_cons.mp valid.holdsNodup).2
  bookingsNodup := (List.nodup_cons.mp valid.bookingsNodup).2
  unused d member := by
    rw [Option.eq_none_iff_forall_ne_some]
    intro q located
    obtain ⟨rs', present, inside⟩ := (turn.healthy.consistent.entities d.2.1 q).mp located
    obtain ⟨rs, x, before, turned⟩ := turn.before q rs' present
    obtain ⟨i, isHere, same⟩ := List.mem_map.mp inside
    rcases turned.ids i isHere with old | new
    · have taken := (h.consistent.entities d.2.1 q).mpr ⟨rs, before, same ▸ List.mem_map_of_mem old⟩
      rw [valid.unused d (List.mem_cons_of_mem _ member)] at taken
      cases taken
    · have same : d.2.1 = c.2.1 := same.symm.trans (new.trans given.symm)
      have again : c.2.1 ∈ commits.map (·.2.1) := same ▸ List.mem_map_of_mem member
      exact absurd again (List.nodup_cons.mp valid.bookingsNodup).1
  labels d member := valid.labels d (List.mem_cons_of_mem _ member)

/-- The entries of the rest are the same before and after the turn. -/
theorem Turn.entry {c : Ulid × Ulid × Option String} {entry : HoldCommit} (apart : c.1 ≠ hold.id)
    (recorded : e.Entry c entry) : e'.Entry c entry := by
  obtain ⟨rs, i, on, same⟩ := recorded
  obtain ⟨rs', _, after, _⟩ := turn.holdOn_after apart on
  exact ⟨rs', i, after, same⟩

/-- A list fits exactly when its first hold is admissible and, after its turn, the rest
    fits. -/
theorem Turn.fits_iff (h : e.Healthy) {c : Ulid × Ulid × Option String} {r : Ulid} {rs : ResourceState}
    (on : e.HoldOn c.1 r rs hold) (fresh : e.store.getResourceForEntity bookingId = none)
    (notAgain : c.1 ∉ commits.map (·.1)) (first : e.Admissible c.1) :
    e.Fits (c :: commits) ↔ e'.Fits commits := by
  obtain ⟨r₀, rs₀, hold₀, on₀, room₀⟩ := first
  obtain ⟨rfl, rfl, rfl⟩ := on.unique h on₀
  have named := on.named
  have ids : (c :: commits).map (·.1) = hold.id :: commits.map (·.1) := by rw [List.map_cons, named]
  have nodup := fun q rs present => (h.consistent.wellFormed q rs present).idsNodup
  have room : ∀ q rs₁, e.store.getResource q = some rs₁ → hold ∈ rs₁.intervals →
      ∀ t, rs₁.occupies hold.span t = true → rs₁.othersAt e.clock (some hold.id) t < rs₁.capacity.toNat := by
    intro q rs₁ present inside
    obtain ⟨rfl, rfl, _⟩ := on.unique h ⟨present, inside, named, on.isHold⟩
    exact named ▸ room₀
  have apart : ∀ d ∈ commits, d.1 ≠ hold.id := fun d member same =>
    notAgain (named ▸ same ▸ List.mem_map_of_mem member)
  constructor
  · rintro ⟨admissible, fit⟩
    rw [LapsedFit, ids] at fit
    refine ⟨fun d member => ?_, fun q rs' found => ?_⟩
    · obtain ⟨q, rs₁, i, onI, roomI⟩ := admissible d (List.mem_cons_of_mem _ member)
      obtain ⟨rs', x, after, turned⟩ := turn.holdOn_after (apart d member) onI
      have free := onI.ne_unused h fresh
      refine ⟨q, rs', i, after, fun t covers => ?_⟩
      rw [turned.occupies] at covers
      rw [turn.clock, ← onI.named]
      exact turned.room (nodup q rs₁ onI.present) onI.inside onI.isHold
        (onI.named ▸ List.mem_map_of_mem member) (onI.named ▸ apart d member) free covers
        (fit q rs₁ onI.present t) (onI.named ▸ roomI t covers)
    · obtain ⟨rs₁, x, present, turned⟩ := turn.before q rs' found
      rw [turn.clock]
      exact (turned.fit_iff (nodup q rs₁ present) (room q rs₁ present)).mp (fit q rs₁ present)
  · rintro ⟨admissible, fit⟩
    refine ⟨fun d member => ?_, ?_⟩
    · rcases List.mem_cons.mp member with rfl | member
      · exact ⟨r, rs, hold, on, room₀⟩
      · obtain ⟨q, rs', i, after, roomI⟩ := admissible d member
        obtain ⟨rs₁, x, onI, turned⟩ := turn.holdOn_before (apart d member) after
        have free := onI.ne_unused h fresh
        refine ⟨q, rs₁, i, onI, fun t covers => ?_⟩
        have below := roomI t (by rwa [turned.occupies])
        rw [turn.clock, turned.capacity, ← onI.named,
          turned.others _ t (onI.named ▸ apart d member) free] at below
        rw [← onI.named]
        omega
    · rw [LapsedFit, ids]
      intro q rs₁ present
      obtain ⟨rs', x, found, turned⟩ := turn.after q rs₁ present
      refine (turned.fit_iff (nodup q rs₁ present) (room q rs₁ present)).mpr ?_
      have fitted := fit q rs' found
      rwa [turn.clock] at fitted

end Turns

/-- The commit of one admissible hold is that hold's turn, and is refused otherwise. -/
theorem exec_commitHold (h : e.Healthy) {c : Ulid × Ulid × Option String} (valid : e.ValidCommits [c]) :
    (¬ e.Admissible c.1 → ∃ error, exec (commitHold c.1 c.2.1 c.2.2) e = (.error error, e)) ∧
    ∀ entry, e.Admissible c.1 → e.Entry c entry → ∃ e' rs hold, exec (commitHold c.1 c.2.1 c.2.2) e = (.ok (), e') ∧
      e.HoldOn c.1 entry.resourceId rs hold ∧ e.Wrote e' [.holdsCommitted [entry]] ∧
      e.Turn e' hold c.2.1 := by
  have checked := checkCommits_iff h valid 0
  rw [List.forall_mem_singleton] at checked
  constructor
  · intro inadmissible
    cases passed : e.checkCommits [c] 0 with
    | error refused => exact ⟨_, commitHolds_refused (List.cons_ne_nil c []) passed⟩
    | ok both => exact absurd (checked.mp ⟨both.1, both.2, passed⟩) inadmissible
  · rintro entry admissible ⟨rs, hold, on, recorded⟩
    obtain ⟨rids, entries, passed⟩ := checked.mpr admissible
    obtain ⟨e', ran, wrote⟩ := commitHolds_wrote h (List.cons_ne_nil c []) passed
    cases checkCommits_entries h valid passed with
    | cons first none =>
        cases none
        obtain ⟨_, rs', hold', on', recorded'⟩ := first
        obtain ⟨sameResource, _, rfl⟩ := on.unique h on'
        rw [← sameResource] at recorded'
        obtain rfl := recorded.trans recorded'.symm
        refine ⟨e', rs, hold, ran, on, wrote, ?_⟩
        have named : entry.holdId = c.1 ∧ entry.bookingId = c.2.1 := by
          rw [recorded]
          exact ⟨rfl, rfl⟩
        have span : entry.span = hold.span := by rw [recorded]
        rw [← named.2]
        exact turn_of_wrote h (named.1 ▸ on) span (.commit passed) wrote

theorem ValidCommits.first {c : Ulid × Ulid × Option String} (valid : e.ValidCommits (c :: commits)) :
    e.ValidCommits [c] where
  size := (Nat.succ_le_succ (Nat.zero_le _)).trans valid.size
  holdsNodup := List.nodup_singleton _
  bookingsNodup := List.nodup_singleton _
  unused := List.forall_mem_singleton.mpr (valid.unused c List.mem_cons_self)
  labels := List.forall_mem_singleton.mpr (valid.labels c List.mem_cons_self)

theorem commitInTurn_cons (c : Ulid × Ulid × Option String) :
    commitInTurn (c :: commits) = commitHold c.1 c.2.1 c.2.2 >>= fun _ => commitInTurn commits := rfl

/-- What commits in turn leave: each record applied, and every lapsed hold alive again. -/
structure Turns (e e' : Engine) (ids : List Ulid) (entries : List HoldCommit) : Prop where
  table : ∀ r, e'.store.getResource r =
    entries.foldl (fun entry c => (Event.holdsCommitted [c]).stepOn r entry) (e.store.getResource r)
  load : ∀ r rs', e'.store.getResource r = some rs' → ∃ rs, e.store.getResource r = some rs ∧
    rs'.capacity = rs.capacity ∧
      ∀ t, rs'.liveAt e.clock t = rs.liveAt e.clock t + rs.lapsedAt e.clock ids t

/-- One after another: every commit succeeds on a list that fits, and writes its own record. -/
theorem commitInTurn_fits (h : e.Healthy) (valid : e.ValidCommits commits) (fits : e.Fits commits)
    {entries : List HoldCommit} (recorded : List.Forall₂ e.Entry commits entries) :
    ∃ e', exec (commitInTurn commits) e = (.ok (), e') ∧ e.Turns e' (commits.map (·.1)) entries := by
  induction commits generalizing e entries with
  | nil =>
      cases recorded
      exact ⟨e, rfl, fun r => rfl, fun r rs' found => ⟨rs', found, rfl, fun t => by simp [ResourceState.lapsedAt]⟩⟩
  | cons c rest ih =>
      cases recorded with
      | @cons _ entry _ entries one others =>
          have first := fits.1 c List.mem_cons_self
          obtain ⟨e₁, rs, hold, ran, on, wrote, turn⟩ := (exec_commitHold h valid.first).2 entry first one
          have notAgain := (List.nodup_cons.mp valid.holdsNodup).1
          have fresh := valid.unused c List.mem_cons_self
          have apart : ∀ d ∈ rest, d.1 ≠ hold.id := fun d member same =>
            notAgain (List.mem_map.mpr ⟨d, member, same.trans on.named⟩)
          have recordedAfter : List.Forall₂ e₁.Entry rest entries :=
            List.forall₂_iff_zip.mpr ⟨others.length_eq, fun inside =>
              turn.entry (apart _ (List.of_mem_zip inside).1) (List.forall₂_zip others inside)⟩
          obtain ⟨e', ran', turns⟩ := ih turn.healthy (turn.valid h rfl valid)
            ((turn.fits_iff h on fresh notAgain first).mp fits) recordedAfter
          refine ⟨e', ?_, fun r => ?_, fun r rs' found => ?_⟩
          · rw [commitInTurn_cons, exec_bind_ok ran, ran']
          · rw [turns.table, wrote.table]
            rfl
          · obtain ⟨rs₁, found₁, capacity, load⟩ := turns.load r rs' found
            obtain ⟨rs₀, x, present, turned⟩ := turn.before r rs₁ found₁
            refine ⟨rs₀, present, capacity.trans turned.capacity, fun t => ?_⟩
            have now := load t
            rw [turn.clock, turned.live] at now
            rw [List.map_cons, ← on.named, turned.lapsed, now]
            omega

/-- One after another: the commits all succeed exactly on a list that fits. -/
theorem commitInTurn_ok (h : e.Healthy) (valid : e.ValidCommits commits) :
    (exec (commitInTurn commits) e).1 = .ok () ↔ e.Fits commits := by
  induction commits generalizing e with
  | nil => simp [commitInTurn, Fits, LapsedFit, ResourceState.lapsedAt]
  | cons c rest ih =>
      rw [commitInTurn_cons]
      by_cases first : e.Admissible c.1
      · obtain ⟨r, rs, hold, on, room⟩ := first
        have first : e.Admissible c.1 := ⟨r, rs, hold, on, room⟩
        obtain ⟨e₁, rs', hold', ran, on', _, turn⟩ := (exec_commitHold h valid.first).2
          ⟨c.1, c.2.1, r, hold.span, c.2.2⟩ first ⟨rs, hold, on, rfl⟩
        rw [exec_bind_ok ran, ih turn.healthy (turn.valid h rfl valid)]
        exact (turn.fits_iff h on' (valid.unused c List.mem_cons_self)
          (List.nodup_cons.mp valid.holdsNodup).1 first).symm
      · obtain ⟨error, ran⟩ := (exec_commitHold h valid.first).1 first
        rw [exec_bind_error ran]
        exact iff_of_false (by simp) fun fits => first (fits.1 c List.mem_cons_self)

/-- The record of a commit does to a resource what its entries do one after another. -/
theorem stepOn_holdsCommitted (r : Ulid) (entries : List HoldCommit) (entry : Option ResourceState) :
    (Event.holdsCommitted entries).stepOn r entry =
      entries.foldl (fun entry c => (Event.holdsCommitted [c]).stepOn r entry) entry := by
  have changes : ∀ ev ∈ entries.map (fun c => Event.holdsCommitted [c]), ev.isChange := by simp [Event.isChange]
  have each := Event.foldl_stepOn r changes entry
  have steps : (entries.map fun c => Event.holdsCommitted [c]).flatMap Event.perResource =
      entries.flatMap HoldCommit.events := by
    rw [List.flatMap_map]
    simp [Event.perResource]
  rw [List.foldl_map, steps] at each
  exact each.symm

/-! ## Agreement -/

/-- A commit of several holds agrees with their commits one after another: one succeeds when
    the other does, they leave the same resources, and no instant that a committed hold
    occupies ends up with more live allocations than the capacity. -/
structure CommitsAgree (e : Engine) (commits : List (Ulid × Ulid × Option String)) : Prop where
  outcome : (exec (commitHolds commits) e).1 = .ok () ↔ (exec (commitInTurn commits) e).1 = .ok ()
  resources : (exec (commitHolds commits) e).1 = .ok () → ∀ r,
    (exec (commitHolds commits) e).2.store.getResource r = (exec (commitInTurn commits) e).2.store.getResource r
  capacity : (exec (commitHolds commits) e).1 = .ok () → ∀ c ∈ commits, ∀ r rs hold, e.HoldOn c.1 r rs hold →
    ∀ t, rs.occupies hold.span t = true → ∀ rs', (exec (commitHolds commits) e).2.store.getResource r = some rs' →
      rs'.liveAt e.clock t ≤ rs'.capacity.toNat

/-- Both ways to commit a list that fits leave the same resources. -/
theorem commitHolds_turns (h : e.Healthy) (valid : e.ValidCommits commits) (fits : e.Fits commits) :
    ∃ e₁ e₂ entries, exec (commitHolds commits) e = (.ok (), e₁) ∧ exec (commitInTurn commits) e = (.ok (), e₂) ∧
      e.Turns e₂ (commits.map (·.1)) entries ∧ ∀ r, e₁.store.getResource r = e₂.store.getResource r := by
  by_cases some : commits = []
  · subst some
    obtain ⟨e₂, ran, turns⟩ := commitInTurn_fits h valid fits .nil
    exact ⟨e, e₂, [], rfl, ran, turns, fun r => (turns.table r).symm⟩
  · obtain ⟨rids, entries, passed⟩ := (checkCommits_iff h valid 0).mpr fits.1
    obtain ⟨e₁, ran₁, wrote⟩ := commitHolds_wrote h some passed
    have recorded := (checkCommits_entries h valid passed).imp fun _ _ both => both.2
    obtain ⟨e₂, ran₂, turns⟩ := commitInTurn_fits h valid fits recorded
    refine ⟨e₁, e₂, entries, ran₁, ran₂, turns, fun r => ?_⟩
    rw [turns.table, wrote.table, List.foldl_cons, List.foldl_nil, stepOn_holdsCommitted]

theorem commitsAgree_of_fits (h : e.Healthy) (valid : e.ValidCommits commits) (fits : e.Fits commits) :
    e.CommitsAgree commits := by
  obtain ⟨e₁, e₂, entries, ran₁, ran₂, turns, same⟩ := commitHolds_turns h valid fits
  refine ⟨by rw [ran₁, ran₂], fun _ => ?_, fun _ c member r rs hold on t covers rs' found => ?_⟩
  · rw [ran₁, ran₂]
    exact same
  · rw [ran₁] at found
    rw [same] at found
    obtain ⟨rs₀, present, capacity, load⟩ := turns.load r rs' found
    obtain rfl : rs = rs₀ := Option.some.inj (on.present.symm.trans present)
    rw [load, capacity]
    rcases Nat.eq_zero_or_pos (rs.lapsedAt e.clock (commits.map (·.1)) t) with none | some
    · obtain ⟨_, _, _, on', room⟩ := fits.1 c member
      obtain ⟨rfl, rfl, rfl⟩ := on.unique h on'
      have own : rs.liveAt e.clock t = rs.othersAt e.clock (Option.some hold.id) t +
          if hold.kind.live e.clock then 1 else 0 :=
        ResourceState.liveAt_own (h.consistent.wellFormed r rs present).idsNodup on.inside covers
      have below := room t covers
      rw [on.named] at own
      split at own <;> omega
    · exact fits.2 r rs present t some

/-- Agreement of a commit with its entries in turn, exactly: some entry is not admissible by
    itself, or wherever named holds have lapsed there is room for all of them. -/
theorem commitsAgree_iff (h : e.Healthy) (valid : e.ValidCommits commits) :
    e.CommitsAgree commits ↔ (∃ c ∈ commits, ¬ e.Admissible c.1) ∨ e.LapsedFit (commits.map (·.1)) := by
  by_cases admissible : ∀ c ∈ commits, e.Admissible c.1
  · have together := (commitHolds_ok h valid).mpr admissible
    have noneFails : ¬ ∃ c ∈ commits, ¬ e.Admissible c.1 := by simpa using admissible
    rw [or_iff_right noneFails]
    constructor
    · intro agree
      exact ((commitInTurn_ok h valid).mp (agree.outcome.mp together)).2
    · intro fit
      exact commitsAgree_of_fits h valid ⟨admissible, fit⟩
  · have refused : ¬ (exec (commitHolds commits) e).1 = .ok () := fun ok =>
      admissible ((commitHolds_ok h valid).mp ok)
    refine iff_of_true ⟨iff_of_false refused fun ok => admissible ((commitInTurn_ok h valid).mp ok).1,
      fun ok => absurd ok refused, fun ok => absurd ok refused⟩ (.inl ?_)
    simpa using admissible

/-- The engine at another reading of its clock. -/
def readAt (e : Engine) (now : Ms) : Engine := { e with clock := now }

end Engine

/-- Steps that never lower a capacity and never change a buffer. -/
def Move.KeepsShape (e : Engine) : Move → Prop
  | .op (.updateResource id _ capacity bufferAfter) => ∀ rs, e.store.getResource id = some rs →
      (∀ c, capacity = some c → rs.capacity ≤ c) ∧ ∀ b, bufferAfter = some b → rs.bufferAfter = b
  | _ => True

namespace Engine

/-- In every state that such steps reach, at every reading of the clock: a commit of several
    holds agrees with the commits of its entries in turn exactly when some entry is refused
    by itself or the named holds that have lapsed fit beside the live allocations. -/
theorem commitHolds_agrees_iff {e : Engine} (reached : Reachable Move.KeepsShape e) (now : Ms)
    {commits : List (Ulid × Ulid × Option String)} (valid : (e.readAt now).ValidCommits commits) :
    (e.readAt now).CommitsAgree commits ↔
      (∃ c ∈ commits, ¬ (e.readAt now).Admissible c.1) ∨ (e.readAt now).LapsedFit (commits.map (·.1)) := by
  have h : (e.readAt now).Healthy := ⟨reached.healthy.running, reached.healthy.noFault, reached.healthy.consistent⟩
  exact commitsAgree_iff h valid

/-- A run in which a second hold takes the span of a first one that has lapsed, and lapses
    as well. -/
def twiceLapsed : Engine :=
  (((((start 0 1000).next (.op (.createResource 1 none none 1 none))).next
    (.op (.placeHold 2 1 ⟨⟨10, 20⟩, valid_10_20⟩ 100 0))).next (.tick 200)).next
    (.op (.placeHold 3 1 ⟨⟨10, 20⟩, valid_10_20⟩ 300 0))).next (.tick 200)

theorem twiceLapsed_reachable : Reachable Move.KeepsShape twiceLapsed :=
  .step _ (.step _ (.step _ (.step _ (.step _ (.start 0 1000) trivial trivial) trivial trivial)
    trivial trivial) trivial trivial) trivial trivial

theorem twiceLapsed_valid : (twiceLapsed.readAt 400).ValidCommits [(2, 4, none), (3, 5, none)] where
  size := by decide
  holdsNodup := by decide
  bookingsNodup := by decide
  unused := by
    rintro c (_ | ⟨_, _ | ⟨_, ⟨⟩⟩⟩) <;> rfl
  labels := by
    rintro c (_ | ⟨_, _ | ⟨_, ⟨⟩⟩⟩) <;> rfl

theorem twiceLapsed_agrees_iff :
    (twiceLapsed.readAt 400).CommitsAgree [(2, 4, none), (3, 5, none)] ↔
      (∃ c ∈ ([(2, 4, none), (3, 5, none)] : List (Ulid × Ulid × Option String)),
        ¬ (twiceLapsed.readAt 400).Admissible c.1) ∨ (twiceLapsed.readAt 400).LapsedFit [2, 3] :=
  commitHolds_agrees_iff twiceLapsed_reachable 400 twiceLapsed_valid

/-- Committed together both lapsed holds become bookings of one span, committed in turn the
    second is refused: two live bookings on a resource of capacity one. -/
theorem twiceLapsed_double_booked :
    Reachable Move.KeepsShape twiceLapsed ∧
      (twiceLapsed.readAt 400).ValidCommits [(2, 4, none), (3, 5, none)] ∧
      (exec (commitHolds [(2, 4, none), (3, 5, none)]) (twiceLapsed.readAt 400)).1 = .ok () ∧
      (exec (commitInTurn [(2, 4, none), (3, 5, none)]) (twiceLapsed.readAt 400)).1 = .error (.conflict 4) ∧
      ((exec (commitHolds [(2, 4, none), (3, 5, none)]) (twiceLapsed.readAt 400)).2.store.getResource 1).map
        (fun rs => (rs.capacity, rs.liveAt 400 15)) = some (1, 2) ∧
      ¬ (twiceLapsed.readAt 400).CommitsAgree [(2, 4, none), (3, 5, none)] := by
  have refused : (exec (commitInTurn [(2, 4, none), (3, 5, none)]) (twiceLapsed.readAt 400)).1 =
      .error (.conflict 4) := rfl
  refine ⟨twiceLapsed_reachable, twiceLapsed_valid, rfl, refused, rfl, fun agree => ?_⟩
  have inTurn := agree.outcome.mp rfl
  rw [refused] at inTurn
  cases inTurn

end Engine

end Deltat
