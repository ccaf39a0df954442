import Deltat.EarlyReads
import Deltat.NeverDoubleBook

/-! # Never double-book, with everything in flight

A request checks a resource and changes it under one lock, so what it has found free stays free
until its last change. No interleaving of requests, creates, flushes and compactions books a
resource beyond its capacity, neither in memory nor in what a crash would leave of it.
-/

namespace Deltat

open Lib Lib.Outcome Lib.Machine Conflict

namespace ResourceState

variable {rs : ResourceState} {now now' t : Ms} {change : Event} {changes : List Event}

/-- At no instant are there more live allocations than the capacity. -/
def Fits (rs : ResourceState) (now : Ms) : Prop := ∀ t, rs.liveAt now t ≤ rs.capacity.toNat

/-- The changes keep the resource within its capacity, however many of them have been applied. -/
def FitsThroughout (rs : ResourceState) (now : Ms) (changes : List Event) : Prop :=
  ∀ done, done <+: changes → (done.foldl applySingle rs).Fits now

theorem Fits.later (fits : rs.Fits now) (le : now ≤ now') : rs.Fits now' :=
  fun t => (Engine.countAt_later le t).trans (fits t)

theorem Fits.throughout (fits : rs.Fits now) : rs.FitsThroughout now [] := by
  intro done front
  rw [List.prefix_nil.mp front]
  exact fits

theorem FitsThroughout.first (fits : rs.FitsThroughout now changes) : rs.Fits now := fits [] List.nil_prefix

theorem FitsThroughout.later (fits : rs.FitsThroughout now changes) (le : now ≤ now') : rs.FitsThroughout now' changes :=
  fun done front => (fits done front).later le

theorem FitsThroughout.next (fits : rs.FitsThroughout now (change :: changes)) :
    (rs.applySingle change).FitsThroughout now changes :=
  fun done front => fits (change :: done) (List.cons_prefix_cons.mpr ⟨rfl, front⟩)

theorem FitsThroughout.last (fits : rs.FitsThroughout now changes) : (changes.foldl applySingle rs).Fits now :=
  fits changes List.prefix_rfl

theorem countAt_anti {intervals : List Interval} (le : now ≤ now') :
    rs.countAt now' intervals t ≤ rs.countAt now intervals t := by
  refine List.countP_mono_left fun i _ counted => ?_
  rw [Bool.and_eq_true] at counted ⊢
  refine ⟨?_, counted.2⟩
  have live := counted.1
  cases kind : i.kind with
  | hold expiresAt =>
      simp only [kind, IntervalKind.live, Bool.not_eq_true', decide_eq_false_iff_not] at live ⊢
      lia
  | nonBlocking | blocking => simp [kind, IntervalKind.live] at live
  | booking => rfl

/-- Independent changes that a resource accepts keep it within its capacity when at every point
    what they have added by then finds room beside what they have left. -/
theorem fitsThroughout (wf : rs.WellFormed) (accepts : ∀ ev ∈ changes, rs.Accepts ev)
    (apart : changes.Pairwise Event.Independent) (keeps : ∀ ev ∈ changes, ev.KeepsRoom) (fits : rs.Fits now)
    (room : ∀ done, done <+: changes → ∀ t, 0 < rs.countAt now (done.filterMap (·.adds)) t →
      rs.countAt now (done.filterMap (·.adds)) t + rs.countAt now (rs.intervals.filter fun i =>
        decide (some i.id ∉ done.map (·.removes))) t ≤ rs.capacity.toNat) : rs.FitsThroughout now changes := by
  intro done front t
  have inside : ∀ ev ∈ done, ev ∈ changes := fun ev applied => front.subset applied
  rw [liveAt_foldl wf (fun ev applied => accepts ev (inside ev applied)) (apart.sublist front.sublist)
    fun ev applied => keeps ev (inside ev applied), (foldl_applySingle_room (fun ev applied => keeps ev (inside ev applied)) rs).1]
  rcases Nat.eq_zero_or_pos (rs.countAt now (done.filterMap (·.adds)) t) with nothing | something
  · rw [nothing, Nat.zero_add]
    exact (countAt_mono List.filter_sublist).trans (fits t)
  · exact room done front t something

end ResourceState

namespace Request

/-- A request that leaves capacities and buffers alone and commits one hold at most. -/
def KeepsRoom : Request → Prop
  | updateResource _ _ capacity bufferAfter => capacity = none ∧ bufferAfter = none
  | commitHolds commits => commits.length = 1
  | _ => True

theorem prepare_keepsRoom {e : Engine} {given request : Request} (passed : given.prepare e = .ok request)
    (keeps : given.KeepsRoom) : request.KeepsRoom := by
  cases given with
  | commitHolds commits =>
      obtain ⟨_, _, passed⟩ := bind_ok.mp passed
      obtain ⟨_, _, passed⟩ := bind_ok.mp passed
      obtain ⟨_, _, passed⟩ := bind_ok.mp passed
      obtain ⟨_, _, same⟩ := bind_ok.mp passed
      cases same
      exact keeps
  | updateResource id name capacity bufferAfter =>
      obtain ⟨_, _, same⟩ := bind_ok.mp passed
      cases same
      exact keeps
  | addRule | updateRule =>
      obtain ⟨_, _, same⟩ := bind_ok.mp passed
      cases same
      trivial
  | placeHold | confirmBooking | batchPlaceHolds | batchConfirmBookings =>
      obtain ⟨_, _, passed⟩ := bind_ok.mp passed
      obtain ⟨_, _, same⟩ := bind_ok.mp passed
      cases same
      trivial
  | removeRule | removeHold | cancelBooking =>
      cases passed
      trivial

theorem prepared_keepsRoom {e : Engine} {given : Request} {request : Prepared} (passed : given.prepared e = .ok request)
    (keeps : given.KeepsRoom) : request.1.KeepsRoom := by
  unfold prepared at passed
  split at passed
  · next prepares =>
      cases passed
      exact prepare_keepsRoom prepares keeps
  · cases passed

section Admission

variable {e : Engine} {guard : Ulid → Option ResourceState} {rules : Ulid → InheritedRules} {targets : List Ulid}
  {request : Request} {records : List Event} {r : Ulid} {rs : ResourceState} {now : Ms}

/-- Each member of a batch was judged on the guarded state of its resource, beside the others there. -/
theorem admitMembers_on {members : List (Ulid × Ulid × Span)} (passed : admitMembers e guard rules members = .ok ())
    {m : Ulid × Ulid × Span} (inside : m ∈ members) :
    ∃ rs, guard m.2.1 = some rs ∧ e.AdmittedOn rs (Engine.membersOn members m.2.1) := by
  obtain ⟨guards, locks, passed⟩ := bind_ok.mp passed
  obtain ⟨_, _, admitted⟩ := bind_ok.mp passed
  have listed : m.2.1 ∈ Engine.ascending (members.map (·.2.1)) := Engine.mem_ascending.mpr (List.mem_map_of_mem inside)
  obtain ⟨rs, _, row, held, _⟩ := mapM_ok_zip locks locks listed
  refine ⟨rs, locked_ok.mp held, Engine.admitOn_ok (forM_ok.mp admitted (m.2.1, rs) ?_)⟩
  exact List.of_mem_zip row |>.1

theorem changesOn_own (records : List Event) (r : Ulid) :
    records.flatMap (Event.changesOn r) = Engine.own records r := List.filter_flatMap.symm

/-- New allocations that were judged together fit one after the other. -/
theorem placements_fit {α : Type} (members : List α) (mk : α → Event) (toMember : α → Ulid × Ulid × Span)
    (routed : ∀ m, (mk m).resourceId? = some (toMember m).2.1)
    (adds : ∀ m, ∃ kind, (mk m).adds = some ⟨(toMember m).1, (toMember m).2.2, kind⟩) (keeps : ∀ m, (mk m).KeepsRoom)
    (admitted : ∀ m ∈ members, (toMember m).2.2.Admitted)
    (passed : admitMembers e guard rules (members.map toMember) = .ok ())
    (shown : ∀ rs', guard r = some rs' → rs' = rs) (wf : rs.WellFormed) (fits : rs.Fits now) (le : e.clock ≤ now)
    (accepts : ∀ ev ∈ Engine.own (members.map mk) r, rs.Accepts ev)
    (apart : (Engine.own (members.map mk) r).Pairwise Event.Independent) :
    rs.FitsThroughout now (Engine.own (members.map mk) r) := by
  refine ResourceState.fitsThroughout wf accepts apart (fun ev inside => ?_) fits fun done front t some => ?_
  · rw [Engine.own_batch routed] at inside
    obtain ⟨m, _, rfl⟩ := List.mem_map.mp inside
    exact keeps m
  · -- What has been placed by now is part of the batch, and all of the batch fits beside the rest.
    have part : rs.countAt now (done.filterMap (·.adds)) t ≤
        batchAt rs ((Engine.membersOn (members.map toMember) r).map (·.2)) t :=
      (ResourceState.countAt_mono (front.sublist.filterMap _)).trans (Engine.countAt_batch routed adds rs now t r)
    have covered : ∃ s ∈ (Engine.membersOn (members.map toMember) r).map (·.2), rs.occupies s t = true :=
      List.countP_pos_iff.mp (Nat.lt_of_lt_of_le some part)
    obtain ⟨m, member, onR⟩ : ∃ m ∈ members, (toMember m).2.1 = r := by
      obtain ⟨s, inside, _⟩ := covered
      rw [Engine.membersOn_spans] at inside
      obtain ⟨m, member, _⟩ := List.mem_map.mp inside
      exact ⟨m, by simpa using List.mem_filter.mp member⟩
    obtain ⟨guarded, held, on⟩ := admitMembers_on passed (List.mem_map_of_mem member)
    rw [onR] at held on
    rw [shown guarded held] at on
    have spans : ∀ m ∈ Engine.membersOn (members.map toMember) r, m.2.Admitted := by
      intro pair inside
      obtain ⟨m', given, rfl⟩ := List.mem_map.mp inside
      obtain ⟨m'', member', rfl⟩ := List.mem_map.mp (List.mem_filter.mp given).1
      exact admitted m'' member'
    have together := admittedOn_room wf spans on covered
    have kept : rs.countAt now (rs.intervals.filter fun i => decide (Option.some i.id ∉ done.map (·.removes))) t ≤
        rs.liveAt now t := ResourceState.countAt_mono List.filter_sublist
    have earlier : rs.liveAt now t ≤ rs.liveAt e.clock t := Engine.countAt_later le t
    omega

/-- The commit of one hold swaps it for a booking whose room the check has seen. -/
theorem commit_fits {c : HoldCommit} {hold : Interval}
    (found : Engine.findIntervalOfKind rs c.holdId IntervalKind.isHold = .ok hold)
    (passed : checkNoConflictExcluding rs hold.span e.clock (some c.holdId) = .ok ()) (span : c.span = hold.span)
    (wf : rs.WellFormed) (fits : rs.Fits now) (le : e.clock ≤ now) (accepts : ∀ ev ∈ c.events, rs.Accepts ev)
    (apart : c.events.Pairwise Event.Independent) : rs.FitsThroughout now c.events := by
  obtain ⟨heldHere, _, _⟩ := Engine.findIntervalOfKind_mem found
  refine ResourceState.fitsThroughout wf accepts apart (fun ev inside => ?_) fits fun done front t some => ?_
  · simp only [HoldCommit.events, List.mem_cons, List.not_mem_nil, or_false] at inside
    rcases inside with rfl | rfl <;> exact fun _ => ⟨rfl, rfl⟩
  · -- Only with the booking placed has anything been added, and then the hold is gone.
    have whole : done = c.events := by
      have length := front.length_le
      have shape : done = c.events.take done.length := List.prefix_iff_eq_take.mp front
      simp only [HoldCommit.events, List.length_cons, List.length_nil] at length shape ⊢
      rcases Nat.lt_or_ge done.length 2 with short | long
      · interval_cases count : done.length
        all_goals
          rw [shape] at some
          simp [ResourceState.countAt, Event.adds] at some
      · rw [shape, List.take_of_length_le (by simpa using long)]
    subst whole
    have added : c.events.filterMap (·.adds) = [⟨c.bookingId, c.span, .booking c.label⟩] := rfl
    rw [added] at some ⊢
    have covers : rs.occupies hold.span t = true := by
      obtain ⟨i, inside, counted⟩ := List.countP_pos_iff.mp some
      rw [List.mem_singleton.mp inside, Bool.and_eq_true] at counted
      exact span ▸ counted.2
    have others := (checkNoConflictExcluding_ok wf (wf.admitted hold heldHere).span).mp passed t covers
    have kept : rs.countAt e.clock (rs.intervals.filter fun i => decide (Option.some i.id ∉ c.events.map (·.removes))) t =
        rs.othersAt e.clock (Option.some c.holdId) t := by
      rw [ResourceState.countAt, List.countP_filter, ResourceState.othersAt]
      refine List.countP_congr fun i _ => ?_
      simp only [HoldCommit.events, List.map_cons, List.map_nil, Event.removes, Bool.and_eq_true,
        decide_eq_true_eq, List.mem_cons, List.not_mem_nil, or_false, reduceCtorEq]
      tauto
    have earlier : rs.countAt now (rs.intervals.filter fun i => decide (Option.some i.id ∉ c.events.map (·.removes))) t ≤
        rs.othersAt e.clock (Option.some c.holdId) t := kept ▸ ResourceState.countAt_anti le
    have atMostOne : rs.countAt now [⟨c.bookingId, c.span, .booking c.label⟩] t ≤ 1 := List.countP_le_length
    omega

/-- What a request decides under its locks keeps every resource within its capacity, at the clock
    of the check and at any later one. -/
theorem admitted_fits (consistent : e.store.Consistent) (checked : request.Checked) (keeps : request.KeepsRoom)
    (shows : ∀ rid rs, guard rid = some rs → e.store.getResource rid = some rs)
    (free : ∀ x ∈ request.claims, e.store.getResourceForEntity x = none) (le : e.clock ≤ now)
    (passed : request.admitRecords e guard rules targets = .ok records)
    (present : e.store.getResource r = some rs) (fits : rs.Fits now) :
    rs.FitsThroughout now (records.flatMap (Event.changesOn r)) := by
  rw [changesOn_own]
  have all := admitRecords_allApply consistent checked shows free passed
  have wf := consistent.wellFormed r rs present
  have accepts : ∀ ev ∈ Engine.own records r, rs.Accepts ev := by
    intro ev inside
    obtain ⟨member, routed⟩ := List.mem_filter.mp inside
    obtain ⟨q, applies⟩ := all.applies ev member
    rw [decide_eq_true_eq, applies.routed] at routed
    obtain rfl := Option.some.inj routed
    exact consistent.indexed.accepts present applies
  have apart : (Engine.own records r).Pairwise Event.Independent := all.apart.sublist List.filter_sublist
  -- A single change that adds no live allocation.
  have quiet : ∀ {change : Event} {rid : Ulid}, records = [change] → change.resourceId? = some rid → change.KeepsRoom →
      (∀ i, change.adds = some i → i.kind.live now = false) → rs.FitsThroughout now (Engine.own records r) := by
    intro change rid same routed keeps quiet
    have only : ∀ ev ∈ Engine.own records r, ev = change := by
      rw [same, Engine.own_single routed]
      split <;> simp
    refine ResourceState.fitsThroughout wf accepts apart (fun ev inside => only ev inside ▸ keeps) fits fun done front t some => ?_
    exfalso
    obtain ⟨i, inside, counted⟩ := List.countP_pos_iff.mp some
    obtain ⟨ev, applied, adds⟩ := List.mem_filterMap.mp inside
    rw [only ev (front.subset applied)] at adds
    simp [quiet i adds] at counted
  have shown : ∀ rs', guard r = some rs' → rs' = rs := fun rs' held =>
    Option.some.inj ((shows r rs' held).symm.trans present)
  have same : ∀ rs : ResourceState, rs.capacity = rs.capacity ∧ rs.bufferAfter = rs.bufferAfter := fun _ => ⟨rfl, rfl⟩
  have rule : ∀ {id : Ulid} {span : Span} {blocking : Bool} (i : Interval),
      some (⟨id, span, .ofBlocking blocking⟩ : Interval) = some i → i.kind.live now = false := by
    rintro id span blocking i ⟨⟩
    exact Engine.live_ofBlocking blocking now
  cases request with
  | addRule id rid span blocking =>
      obtain ⟨_, _, passed⟩ := bind_ok.mp passed
      obtain ⟨_, _, written⟩ := bind_ok.mp passed
      cases written
      exact quiet rfl rfl same rule
  | updateRule id span blocking =>
      obtain ⟨rid, _, _, written, _, _⟩ := admitEntity_ok passed
      exact quiet written rfl same rule
  | removeRule | removeHold | cancelBooking =>
      obtain ⟨rid, _, _, written, _, _⟩ := admitEntity_ok passed
      exact quiet written rfl same fun i added => nomatch added
  | updateResource id name capacity bufferAfter =>
      obtain ⟨_, _, written⟩ := bind_ok.mp passed
      cases written
      obtain ⟨rfl, rfl⟩ := keeps
      exact quiet rfl rfl same fun i added => nomatch added
  | placeHold id rid span expiresAt =>
      obtain ⟨_, members, written⟩ := bind_ok.mp passed
      cases written
      exact placements_fit [(id, rid, span, expiresAt)] (fun h => .holdPlaced h.1 h.2.1 h.2.2.1.1 h.2.2.2)
        (fun h => (h.1, h.2.1, h.2.2.1.1)) (fun _ => rfl) (fun _ => ⟨_, rfl⟩) (fun _ => same)
        (List.forall_mem_singleton.mpr (validateSpan_admits span.2 checked.1)) members shown wf fits le accepts apart
  | confirmBooking id rid span label =>
      obtain ⟨_, members, written⟩ := bind_ok.mp passed
      cases written
      exact placements_fit [(id, rid, span, label)] (fun b => .bookingConfirmed b.1 b.2.1 b.2.2.1.1 b.2.2.2)
        (fun b => (b.1, b.2.1, b.2.2.1.1)) (fun _ => rfl) (fun _ => ⟨_, rfl⟩) (fun _ => same)
        (List.forall_mem_singleton.mpr (validateSpan_admits span.2 checked.1)) members shown wf fits le accepts apart
  | batchPlaceHolds holds | batchConfirmBookings bookings =>
      obtain ⟨_, members, written⟩ := bind_ok.mp passed
      cases written
      exact placements_fit _ _ _ (fun _ => rfl) (fun _ => ⟨_, rfl⟩) (fun _ => same)
        (fun m inside => validateSpan_admits m.2.2.1.2 (checked.2 m inside).1) members shown wf fits le accepts apart
  | commitHolds commits =>
      obtain ⟨entries, admitted, written⟩ := bind_ok.mp passed
      cases written
      obtain ⟨c, rfl⟩ := List.length_eq_one_iff.mp keeps
      have each := mapM_ok.mp admitted
      cases targets with
      | nil =>
          cases each
          exact fits.throughout
      | cons rid others =>
          rcases each with _ | ⟨entered, ⟨⟩⟩
          obtain ⟨rs', hold, held, found, noConflict, rfl⟩ := admitEntry_ok entered
          rw [Engine.own_commit] at accepts apart ⊢
          split at accepts
          · next here =>
              rw [if_pos here] at apart ⊢
              cases shown rs' (here ▸ held)
              exact commit_fits found noConflict rfl wf fits le accepts apart
          · next elsewhere =>
              rw [if_neg elsewhere]
              exact fits.throughout

end Admission

end Request

/-- The request that a task works on. -/
def Task.request : Task → Option Request.Prepared
  | .locking request .. | .claiming request .. | .sending request .. | .sent request .. | .waiting request => some request
  | .idle | .answered _ => none

/-- A new resource leaves every request sound. -/
theorem Task.Sound.created {s : InMemoryStore} {task : Task} (sound : task.Sound s) (id : Ulid) (parentId : Option Ulid)
    (name : Option String) (capacity : UInt32) (bufferAfter : Option Ms) :
    task.Sound (s.create id parentId name capacity bufferAfter) := by
  have present : ∀ q, (s.getResource q).isSome → ((s.create id parentId name capacity bufferAfter).getResource q).isSome := by
    intro q there
    rw [InMemoryStore.create_getResource]
    split
    · rfl
    · exact there
  refine ⟨fun h inside => ?_, fun x inside => ?_, sound.order, ⟨fun change inside => ?_, sound.applies.apart⟩, sound.locked,
    sound.routed⟩
  · obtain ⟨current, there⟩ := sound.current h inside
    exact ⟨current, present h.1 there⟩
  · rw [InMemoryStore.create_getResourceForEntity]
    exact sound.free x inside
  · obtain ⟨q, applies⟩ := sound.applies.applies change inside
    refine ⟨q, applies.routed, present q applies.present, fun x removed => ?_, applies.admitted, fun i added => ?_, applies.fields⟩
    · rw [InMemoryStore.create_getResourceForEntity]
      exact applies.removes x removed
    · rw [InMemoryStore.create_getResourceForEntity]
      exact applies.fresh i added

namespace Tenant

variable {shards : Shards} {t t' : Tenant} {a : Action} {r : Ulid} {stored : List Event}

/-- A request that starts leaves capacities and buffers alone. -/
def Action.keepsRoom : Action → Prop
  | .start _ given => given.KeepsRoom
  | _ => True

/-! ## Creates -/

/-- A create under way is of a resource that does not exist, under a parent that does. -/
def Growing (t : Tenant) : Prop := ∀ id parentId name capacity bufferAfter sent,
  t.topology = .creating id parentId name capacity bufferAfter sent →
    (ResourceState.new id parentId name capacity bufferAfter).WellFormed ∧ t.memory.store.getResource id = none ∧
      ∀ p, parentId = some p → p ≠ id ∧ (t.memory.store.getResource p).isSome

theorem Growing.took (growing : t.Growing) (ahead : ∀ r, t.Ahead stored r) (took : t.Took shards a t') : t'.Growing := by
  intro id parentId name capacity bufferAfter sent phase
  have kept : (∃ sent, t.topology = .creating id parentId name capacity bufferAfter sent) →
      (ResourceState.new id parentId name capacity bufferAfter).WellFormed ∧ t'.memory.store.getResource id = none ∧
        ∀ p, parentId = some p → p ≠ id ∧ (t'.memory.store.getResource p).isSome := by
    rintro ⟨sent', before⟩
    obtain ⟨wf, _, parent⟩ := growing _ _ _ _ _ _ before
    refine ⟨wf, ((ahead id).creating_took took phase).1, fun p isParent => ?_⟩
    obtain ⟨apart, there⟩ := parent p isParent
    exact ⟨apart, (ahead p).present took there⟩
  cases took with
  | create _ _ checked =>
      cases phase
      exact Engine.checkCreate_ok checked
  | sendCreate before =>
      cases phase
      exact kept ⟨_, before⟩
  | delete | unlink | clear | sendDelete | finishCreate | finishDelete | abandon => cases phase
  | _ => exact kept ⟨_, phase⟩

/-- A step keeps ids unique, also one of a create. -/
theorem Exclusive.grow (inv : t.Exclusive) (growing : t.Growing) (keeps : ∀ id stage, t.topology ≠ .deleting id stage)
    (took : t.Took shards a t') (spares : a.deletesNothing) (alone : ClaimsAlone t a) : t'.Exclusive := by
  cases stays : a.leavesTopology with
  | true => exact inv.took took stays alone
  | false =>
      have locks := inv.locks.took took
      cases took with
      | delete => cases spares
      | unlink phase | clear phase | sendDelete phase | finishDelete phase => exact absurd phase (keeps _ _)
      | create | sendCreate | abandon => exact ⟨locks, inv.consistent, inv.removed, inv.sound, inv.apart⟩
      | finishCreate phase =>
          obtain ⟨wf, absent, parent⟩ := growing _ _ _ _ _ _ phase
          exact ⟨locks, inv.consistent.create wf absent parent, inv.removed, fun i => (inv.sound i).created _ _ _ _ _, inv.apart⟩
      | _ => cases stays

/-- Ids are unique, so the booking of an entry is never the hold of another. -/
theorem Exclusive.sendsHolds (inv : t.Exclusive) (a : Action) : t.SendsHolds a := by
  cases a with
  | send i =>
      intro entries inside
      cases phase : t.tasks i with
      | sending request held records =>
          rw [phase] at inside
          have apart := (inv.sound i).applies.apart
          rw [phase] at apart
          have own : (entries.flatMap HoldCommit.events).Sublist (records.flatMap Event.perResource) :=
            List.sublist_flatten_of_mem (List.mem_map_of_mem (f := Event.perResource) inside)
          have pairs := (List.pairwise_flatMap.mp (apart.sublist own)).2
          refine pairs.imp fun {c d} independent _ same => ?_
          exfalso
          refine independent (.bookingConfirmed c.bookingId c.resourceId c.span c.label) ?_ (.holdReleased d.holdId d.resourceId)
            ?_ c.bookingId ?_ ?_
          all_goals simp [HoldCommit.events, Event.touches, Event.adds, Event.removes, same]
      | _ =>
          rw [phase] at inside
          cases inside
  | _ => trivial

/-- The requests of the tenant leave capacities and buffers alone. -/
def Modest (t : Tenant) : Prop := ∀ i request, (t.tasks i).request = some request → request.1.KeepsRoom

theorem Modest.took (modest : t.Modest) (took : t.Took shards a t') (keeps : a.keepsRoom) : t'.Modest := by
  intro j request working
  by_cases own : a.task = some j
  · cases took with
    | start _ prepared =>
        cases own
        rw [setTask_self] at working
        cases working
        exact Request.prepared_keepsRoom prepared keeps
    | lookUp phase | lock phase | allLocked phase | claim phase | check phase | send phase | apply phase | release phase =>
        cases own
        simp only [unlock_tasks, setTask_self] at working
        cases working
        exact modest j _ (by rw [phase]; rfl)
    | fail | answer | refuse =>
        cases own
        simp [Task.request] at working
    | _ => cases own
  · rw [took.tasks_other own] at working
    exact modest j request working

/-! ## Room -/

/-- A resource is within its capacity, and stays so through what a request has decided or queued
    under its lock. -/
structure Roomy (t : Tenant) (r : Ulid) : Prop where
  fits : ∀ rs, t.memory.store.getResource r = some rs → rs.Fits t.clock
  decided : ∀ i request held records, t.tasks i = .sending request held records → t.memory.current r ∈ held →
    ∀ rs, t.memory.store.getResource r = some rs → rs.FitsThroughout t.clock (records.flatMap (Event.changesOn r))
  queued : ∀ i, t.memory.current r ∈ (t.tasks i).held → ∀ rs, t.memory.store.getResource r = some rs →
    rs.FitsThroughout t.clock (changesFor (t.tasks i) (t.memory.current r))

theorem Took.clock_le (took : t.Took shards a t') : t.clock ≤ t'.clock := by
  cases took with
  | tick ms => exact Int.le_add_of_nonneg_right (Int.natCast_nonneg ms)
  | _ => exact le_refl _

/-- A check reads the clock before it is over. -/
theorem check_reads {i : TaskId} {now : Ms} {rules : Ulid → InheritedRules}
    (taken : step shards t (.check i now rules) = some t') : now ≤ t.clock := by
  simp only [step, Tenant.check] at taken
  split at taken
  · split at taken
    · next reads => exact reads.1
    · cases taken
  · cases taken

/-- A resource changes under a lock only by what its holder applies. -/
theorem Ahead.still (ahead : t.Ahead stored r) (took : t.Took shards a t') {i : TaskId}
    (mine : t.memory.current r ∈ (t.tasks i).held) :
    t'.memory.store.getResource r = t.memory.store.getResource r ∨ ∃ request held change rest, a = .apply i ∧
      t.tasks i = .sent request held ((t.memory.current r, change) :: rest) ∧
      t'.memory.store.getResource r = (t.memory.store.getResource r).map (·.applySingle change) := by
  rcases ahead.memory took with same | ⟨_, _, _, _, creating, _, _, _⟩ | ⟨j, request, held, change, rest, rfl, sent, applied⟩
  · exact .inl same
  · obtain ⟨rs, there⟩ := ahead.held mine
    cases there.symm.trans (ahead.creating _ _ _ _ _ creating).1
  · have bound := ahead.inOrder.bound j
    have theirs : t.memory.current r ∈ (t.tasks j).held := by
      rw [sent] at bound ⊢
      exact (bound.pending _ List.mem_cons_self).2.1
    cases ahead.inOrder.locks.exclusive mine theirs
    exact .inr ⟨request, held, change, rest, rfl, sent, applied⟩

section Pending

variable {request : Request.Prepared} {held : List Handle} {h h' : Handle} {change : Event} {rest : List (Handle × Event)}

theorem changesFor_cons :
    changesFor (.sent request held ((h, change) :: rest)) h = change :: changesFor (.sent request held rest) h := by
  simp [changesFor, Task.pending]

theorem changesFor_other (other : h' ≠ h) :
    changesFor (.sent request held ((h, change) :: rest)) h' = changesFor (.sent request held rest) h' := by
  simp [changesFor, Task.pending, Ne.symm other]

end Pending

theorem Roomy.fits_took (roomy : t.Roomy r) (ahead : t.Ahead stored r) (took : t.Took shards a t') {rs : ResourceState}
    (present : t'.memory.store.getResource r = some rs) : rs.Fits t'.clock := by
  rcases ahead.memory took with same | ⟨_, _, _, _, _, _, _, created⟩ | ⟨i, request, held, change, rest, _, sent, applied⟩
  · rw [same] at present
    exact (roomy.fits rs present).later took.clock_le
  · cases created.symm.trans present
    exact fun t => Nat.zero_le _
  · rw [applied] at present
    obtain ⟨before, there, rfl⟩ := Option.map_eq_some_iff.mp present
    have bound := ahead.inOrder.bound i
    have mine : t.memory.current r ∈ (t.tasks i).held := by
      rw [sent] at bound ⊢
      exact (bound.pending _ List.mem_cons_self).2.1
    have fits := roomy.queued i mine before there
    rw [sent, changesFor_cons] at fits
    exact fits.next.first.later took.clock_le

theorem Roomy.decided_took (roomy : t.Roomy r) (ahead : t.Ahead stored r) (inv : t.Exclusive) (modest : t.Modest)
    (took : t.Took shards a t') (reads : ∀ i now rules, a = .check i now rules → now ≤ t.clock) {i : TaskId}
    {request : Request.Prepared} {held : List Handle} {records : List Event} (phase : t'.tasks i = .sending request held records)
    (mine : t'.memory.current r ∈ held) {rs : ResourceState} (present : t'.memory.store.getResource r = some rs) :
    rs.FitsThroughout t'.clock (records.flatMap (Event.changesOn r)) := by
  rw [took.current ahead.inOrder.standing] at mine
  by_cases own : a.task = some i
  · cases took with
    | check before _ admitted =>
        cases own
        rw [setTask_self] at phase
        cases phase
        have holds : (t.tasks i).held = held := by rw [before]; rfl
        have sound := inv.sound i
        have whole := sound.order _ _ _ _ _ before
        rw [List.append_nil] at whole
        refine Request.admitted_fits (e := { t.engine with clock := _ }) inv.consistent request.2 (modest i request (by rw [before]; rfl))
          (fun rid rs shown => (inv.guard (holds.symm ▸ shown)).1) (fun x claimed => ?_) (reads _ _ _ rfl) admitted present
          (roomy.fits rs present)
        apply sound.free x
        rw [before]
        exact whole ▸ claimed
    | start | lookUp | lock | allLocked | claim | send | apply | release | fail | answer | refuse =>
        cases own
        simp at phase
    | _ => cases own
  · rw [took.tasks_other own] at phase
    rcases ahead.still took (i := i) (by rw [phase]; exact mine) with same | ⟨_, _, _, _, rfl, _, _⟩
    · exact (roomy.decided i _ _ _ phase mine rs (same ▸ present)).later took.clock_le
    · exact absurd rfl own

theorem Roomy.queued_took (roomy : t.Roomy r) (ahead : t.Ahead stored r) (took : t.Took shards a t') {i : TaskId}
    (mine : t'.memory.current r ∈ (t'.tasks i).held) {rs : ResourceState} (present : t'.memory.store.getResource r = some rs) :
    rs.FitsThroughout t'.clock (changesFor (t'.tasks i) (t'.memory.current r)) := by
  have fits := roomy.fits_took ahead took present
  rw [took.current ahead.inOrder.standing] at mine ⊢
  by_cases own : a.task = some i
  · cases took with
    | send phase =>
        cases own
        rw [setTask_self] at mine ⊢
        rw [(changesFor_queued ahead.inOrder phase).1]
        exact roomy.decided i _ _ _ phase mine rs present
    | @apply _ request held h change rest phase may =>
        cases own
        have took : t.Took shards (.apply i) _ := .apply phase may
        simp only [setTask_self] at mine ⊢
        have before : t.memory.current r ∈ (t.tasks i).held := by rw [phase]; exact mine
        have bound := ahead.inOrder.bound i
        rw [phase] at bound
        have after := Memory.apply_getResource (m := t.memory) (bound.pending _ List.mem_cons_self).1 r
        by_cases here : t.memory.current r = h
        · subst here
          rw [if_pos rfl] at after
          obtain ⟨old, there, rfl⟩ := Option.map_eq_some_iff.mp (after.symm.trans present)
          have queued := roomy.queued i before old there
          rw [phase, changesFor_cons] at queued
          exact queued.next
        · rw [if_neg here] at after
          have queued := roomy.queued i before rs (after.symm.trans present)
          rw [phase, changesFor_other here] at queued
          exact queued
    | lookUp | lock | allLocked | claim | check =>
        cases own
        rw [setTask_self]
        exact fits.throughout
    | start | release | fail | answer | refuse =>
        cases own
        simp [Task.held] at mine
    | _ => cases own
  · rw [took.tasks_other own] at mine ⊢
    rcases ahead.still took mine with same | ⟨_, _, _, _, rfl, _, _⟩
    · exact (roomy.queued i mine rs (same ▸ present)).later took.clock_le
    · exact absurd rfl own

/-- What the holder of a resource's lock has queued keeps the resource within its capacity. -/
theorem Roomy.locked (roomy : t.Roomy r) (ahead : t.Ahead stored r) {rs : ResourceState}
    (present : t.memory.store.getResource r = some rs) : rs.FitsThroughout t.clock (t.locked r) := by
  rw [Tenant.locked]
  cases t.lockedBy (t.memory.current r) with
  | none => exact (roomy.fits rs present).throughout
  | some i =>
      rw [Option.elim_some]
      by_cases mine : t.memory.current r ∈ (t.tasks i).held
      · exact roomy.queued i mine rs present
      · have nothing : changesFor (t.tasks i) (t.memory.current r) = [] := by
          simp only [changesFor, List.map_eq_nil_iff, List.filter_eq_nil_iff, decide_eq_true_eq]
          intro p pending here
          exact mine (here ▸ ((ahead.inOrder.bound i).pending p pending).2.1)
        rw [nothing]
        exact (roomy.fits rs present).throughout

/-- What holds of a tenant that deletes nothing and claims each id once. -/
structure Spacious (stored : List Event) (t : Tenant) : Prop where
  exclusive : t.Exclusive
  ahead : ∀ r, t.Ahead stored r
  growing : t.Growing
  modest : t.Modest
  roomy : ∀ r, t.Roomy r

theorem on_spacious {e : Engine} (healthy : e.Healthy) (fits : e.NoOverbooking) (inStep : e.InStep) :
    (on e).Spacious e.log where
  exclusive := on_exclusive healthy.consistent
  ahead := on_ahead inStep
  growing _ _ _ _ _ _ same := by cases same
  modest _ _ same := by cases same
  roomy r := ⟨fits r, fun _ _ _ _ same => (by cases same), fun _ inside => (List.not_mem_nil inside).elim⟩

theorem Spacious.took (spacious : t.Spacious stored) (took : t.Took shards a t')
    (reads : ∀ i now rules, a = .check i now rules → now ≤ t.clock) (spares : a.deletesNothing) (alone : ClaimsAlone t a)
    (keeps : a.keepsRoom) : t'.Spacious stored where
  exclusive := spacious.exclusive.grow spacious.growing (spacious.ahead 0).keeps took spares alone
  ahead r := (spacious.ahead r).took took spares (spacious.exclusive.sendsHolds a)
  growing := spacious.growing.took spacious.ahead took
  modest := spacious.modest.took took keeps
  roomy r := {
    fits := fun _ present => (spacious.roomy r).fits_took (spacious.ahead r) took present
    decided := fun _ _ _ _ phase mine _ present =>
      (spacious.roomy r).decided_took (spacious.ahead r) spacious.exclusive spacious.modest took reads phase mine present
    queued := fun _ mine _ present => (spacious.roomy r).queued_took (spacious.ahead r) took mine present }

/-- What a crash would leave of a resource is within its capacity: it is memory without its
    latest allocations. -/
theorem Spacious.durable (spacious : t.Spacious stored) {rs : ResourceState} (present : t.memory.store.getResource r = some rs) :
    ∃ durable, (InMemoryStore.replayed (stored ++ t.writer.flushed)).getResource r = some durable ∧ durable.Fits t.clock := by
  obtain ⟨durable, rebuilt, behind⟩ := (spacious.ahead r).agrees rs present
  refine ⟨durable, rebuilt, ?_⟩
  have owed : ((t.owed r).foldl ResourceState.applySingle rs).Fits t.clock := by
    rw [Tenant.owed]
    split
    · exact (spacious.roomy r).fits rs present
    · exact ((spacious.roomy r).locked (spacious.ahead r) present).last
  rw [behind.reaches] at owed
  have fuller : durable.Fuller ((t.earlyOn r).foldl ResourceState.applySingle durable) := behind.tightens.fuller
  intro x
  exact (fuller.load t.clock x).trans (fuller.capacity ▸ owed x)

/-- A new room and a booking of it, up to the check of its id. -/
def bookingOnce : List Action := opening 1 ++ reaching 0 (.confirmBooking 9 1 ⟨⟨10, 20⟩, slot_valid⟩ none)

end Tenant

end Deltat
