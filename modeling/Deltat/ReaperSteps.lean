import Deltat.Reaper

/-! # What steps of the reaper leave alone

A request places holds under its locks and after its watch. No step but a watch announces a hold.
-/

namespace Deltat

open Lib Machine Limits

namespace Memory

/-- Whether a hold stands on a resource, in the table or kept. -/
def Holds (m : Memory) (p : Placement) : Prop :=
  ∃ rs, m.read p.resource = some rs ∧ ∃ i ∈ rs.intervals, i.id = p.id ∧ i.kind = .hold p.expiresAt

end Memory

/-- Only a placement adds a hold. -/
theorem Event.placement_eq {change : Event} {i : Interval} {expiresAt : Ms} (added : change.adds = some i)
    (kind : i.kind = .hold expiresAt) (h : Handle) : change.placement h = some ⟨h, i.id, expiresAt⟩ := by
  cases change with
  | holdPlaced =>
      cases added
      cases kind
      rfl
  | ruleAdded _ _ _ flag | ruleUpdated _ _ _ flag =>
      cases added
      cases flag <;> cases kind
  | bookingConfirmed =>
      cases added
      cases kind
  | _ => cases added

namespace Task

/-- Whether a request has passed its checks. -/
def Decided : Task → Prop
  | sending .. | sent .. | waiting _ | answered _ => True
  | idle | locking .. | claiming .. => False

theorem mem_placements_sending {request : Request.Prepared} {held : List Handle} {records : List Event}
    {p : Placement} (inside : p ∈ (sending request held records).placements) : p.resource ∈ held ∧
      ∃ span, .holdPlaced p.id p.resource.1 span p.expiresAt ∈ records := by
  obtain ⟨⟨h, change⟩, queued, places⟩ := List.mem_filterMap.mp inside
  obtain ⟨inHeld, written, routed⟩ := Tenant.mem_pendingOn.mp queued
  cases change <;> simp only [Event.placement, reduceCtorEq, Option.some.injEq] at places
  subst places
  obtain ⟨record, inRecords, part⟩ := List.mem_flatMap.mp written
  simp only [Event.resourceId?, Option.some.injEq] at routed
  subst routed
  cases record with
  | holdsCommitted commits =>
      obtain ⟨commit, _, part⟩ := List.mem_flatMap.mp part
      simp [HoldCommit.events] at part
  | holdPlaced =>
      cases List.mem_singleton.mp part
      exact ⟨inHeld, _, inRecords⟩
  | _ => cases List.mem_singleton.mp part

theorem sending_of_expiries {task : Task} (some : task.expiries ≠ []) :
    ∃ request held records, task = .sending request held records := by
  cases task with
  | sending request held records => exact ⟨request, held, records, rfl⟩
  | _ => exact absurd rfl some

theorem placements_expiries {task : Task} {request : Request.Prepared} {held : List Handle} {records : List Event}
    {p : Placement} (phase : task = .sending request held records) (inside : p ∈ task.placements) :
    p.expiresAt ∈ task.expiries := by
  subst phase
  obtain ⟨_, span, written⟩ := mem_placements_sending inside
  exact List.mem_filterMap.mpr ⟨_, written, rfl⟩

theorem placements_rest {request : Request.Prepared} {held : List Handle} {q : Handle × Event}
    {rest : List (Handle × Event)} {p : Placement} (inside : p ∈ (sent request held rest).placements) :
    p ∈ (sent request held (q :: rest)).placements := by
  obtain ⟨q, queued, places⟩ := List.mem_filterMap.mp inside
  exact List.mem_filterMap.mpr ⟨q, List.mem_cons_of_mem _ queued, places⟩

end Task

namespace Tenant

variable {shards : Shards} {t t' : Tenant} {a : Action}

/-- What requests have looked up stays theirs while it is in the table. -/
structure Handled (t : Tenant) : Prop where
  locks : t.Locks
  routed : t.Routed
  held : ∀ i, ∀ q ∈ (t.tasks i).pending, q.1 ∈ (t.tasks i).held
  looked : ∀ i, ∀ h ∈ (t.tasks i).handles, h.2 ≤ t.memory.removed h.1 ∧
    (h.2 = t.memory.removed h.1 → (t.memory.store.getResource h.1).isSome)

theorem on_handled (e : Engine) : (on e).Handled where
  locks := on_locks e
  routed _ _ inside := (List.not_mem_nil inside).elim
  held _ _ inside := (List.not_mem_nil inside).elim
  looked _ _ inside := (List.not_mem_nil inside).elim

/-- A handle never runs ahead of its resource, and no other resource takes its place. -/
theorem Took.present (took : t.Took shards a t') (routed : t.Routed) {h : Handle}
    (looked : h.2 ≤ t.memory.removed h.1 ∧ (h.2 = t.memory.removed h.1 → (t.memory.store.getResource h.1).isSome)) :
    h.2 ≤ t'.memory.removed h.1 ∧ (h.2 = t'.memory.removed h.1 → (t'.memory.store.getResource h.1).isSome) := by
  cases took with
  | @apply i _ _ h' change _ phase =>
      have pending : (h', change) ∈ (t.tasks i).pending := by
        rw [phase]
        exact List.mem_cons_self
      simp only [Memory.apply_removed, Memory.apply_present (routed i _ pending)]
      exact looked
  | unlink => simpa only [InMemoryStore.unlink_getResource] using looked
  | finishCreate =>
      refine ⟨looked.1, fun current => ?_⟩
      simp only [InMemoryStore.create_getResource]
      split
      · rfl
      · exact looked.2 current
  | @finishDelete id =>
      simp only [Memory.remove, Function.update_apply, InMemoryStore.removeResource_getResource]
      by_cases same : h.1 = id
      · rw [same] at looked
        simp only [same, if_true]
        exact ⟨by lia, fun current => by lia⟩
      · simp only [same, if_false]
        exact looked
  | _ => exact looked

theorem Handled.took (handled : t.Handled) (took : t.Took shards a t') : t'.Handled where
  locks := handled.locks.took took
  routed := handled.routed.took took
  looked j h inside := by
    apply took.present handled.routed
    rcases took.looked inside with before | found
    · exact handled.looked j h before
    · obtain ⟨current, present⟩ := lookUp_eq.mp found
      exact ⟨current.le, fun _ => present⟩
  held j q inside := by
    have before := took.pending inside
    by_cases own : a.task = some j
    · cases took with
      | send phase =>
          cases own
          simp only [setTask_self, Task.pending] at inside
          simpa [Task.held] using (mem_pendingOn.mp inside).1
      | apply phase =>
          cases own
          have mine := handled.held j q
          rw [phase] at mine
          simp only [setTask_self, Task.pending] at inside
          simpa [Task.held] using mine (List.mem_cons_of_mem _ inside)
      | start | lookUp | lock | allLocked | claim | check | release | fail | answer | refuse =>
          cases own
          simp [Task.pending] at inside
      | _ => cases own
    · rw [took.tasks_other own] at inside ⊢
      exact handled.held j q inside

/-- A request places holds under its locks. -/
theorem Handled.placed (handled : t.Handled) {i : TaskId} {p : Placement} (inside : p ∈ (t.tasks i).placements) :
    p.resource ∈ (t.tasks i).held := by
  have held := handled.held i
  cases phase : t.tasks i with
  | sending =>
      rw [phase] at inside
      exact (Task.mem_placements_sending inside).1
  | sent =>
      rw [phase] at inside held
      obtain ⟨q, queued, places⟩ := List.mem_filterMap.mp inside
      have same : p.resource = q.1 := by
        cases change : q.2 <;> simp only [change, Event.placement, reduceCtorEq, Option.some.injEq] at places
        rw [← places]
      rw [same]
      exact held q queued
  | _ => simp [phase, Task.placements] at inside

/-- A hold stands because it did, or because a request has just applied it. -/
theorem Took.holds (took : t.Took shards a t') (routed : t.Routed) {p : Placement} (stands : t'.memory.Holds p) :
    t.memory.Holds p ∨ ∃ i request held pending, t.tasks i = .sent request held pending ∧
      p ∈ (t.tasks i).placements := by
  obtain ⟨rs, found, i, inside, same, kind⟩ := stands
  rcases took.read routed found with before | ⟨j, change, old, pending, before, rfl⟩ | ⟨_, _, _, _, rfl⟩
  · exact .inl ⟨rs, before, i, inside, same, kind⟩
  · rw [ResourceState.applySingle_eq, ResourceState.setFields_intervals,
      (ResourceState.put_perm change.adds).mem_iff] at inside
    rcases List.mem_append.mp inside with added | kept
    · right
      cases phase : t.tasks j <;> simp only [phase, Task.pending, List.not_mem_nil] at pending
      refine ⟨j, _, _, _, phase, ?_⟩
      rw [phase]
      refine List.mem_filterMap.mpr ⟨_, pending, ?_⟩
      rw [Event.placement_eq (Option.mem_toList.mp added) kind, same]
    · refine .inl ⟨old, before, i, ?_, same, kind⟩
      cases removed : change.removes with
      | none => simpa [removed] using kept
      | some x =>
          rw [removed] at kept
          exact List.mem_of_mem_eraseP kept
  · simp [ResourceState.new] at inside

/-- Placements are decided by the checks under the locks. -/
theorem Took.placements (took : t.Took shards a t') {j : TaskId} {p : Placement} (inside : p ∈ (t'.tasks j).placements) :
    p ∈ (t.tasks j).placements ∨ ¬ (t.tasks j).Decided := by
  by_cases own : a.task = some j
  · cases took with
    | check phase =>
        cases own
        rw [phase]
        exact .inr id
    | send phase =>
        cases own
        rw [phase]
        exact .inl (by simpa [Task.placements] using inside)
    | apply phase =>
        cases own
        rw [phase]
        exact .inl (Task.placements_rest (by simpa using inside))
    | start | lookUp | lock | allLocked | claim | release | fail | answer | refuse =>
        cases own
        simp [Task.placements] at inside
    | _ => cases own
  · rw [took.tasks_other own] at inside
    exact .inl inside

/-- What is decided stays so. -/
theorem Took.decided (took : t.Took shards a t') {j : TaskId} (decided : (t.tasks j).Decided) : (t'.tasks j).Decided := by
  by_cases own : a.task = some j
  · cases took with
    | start phase | lookUp phase | lock phase | allLocked phase | claim phase | check phase =>
        cases own
        rw [phase] at decided
        exact decided.elim
    | send | apply | release | fail | answer | refuse =>
        cases own
        simp [Task.Decided]
    | _ => cases own
  · rwa [took.tasks_other own]

/-- A request with its records not queued stays there until it queues them. -/
theorem Took.sending_stays (took : t.Took shards a t') {j : TaskId} {request : Request.Prepared} {held : List Handle}
    {records : List Event} (phase : t.tasks j = .sending request held records) (other : a ≠ .send j) :
    t'.tasks j = t.tasks j := by
  by_cases own : a.task = some j
  · cases took with
    | send =>
        cases own
        exact absurd rfl other
    | start before | lookUp before | lock before | allLocked before | claim before | check before | apply before
    | release before | fail before | answer before =>
        cases own
        rw [phase] at before
        cases before
    | refuse before =>
        cases own
        rw [phase] at before
        rcases before with ⟨_, _, _, _, same⟩ | ⟨_, _, _, _, same⟩ <;> cases same
    | _ => cases own
  · exact took.tasks_other own

end Tenant

namespace Reaping

variable {shards : Shards} {w w' : Reaping} {a : Action}

/-- A hold, or one about to be placed whose watch has begun. -/
def Near (w : Reaping) (p : Placement) : Prop :=
  w.tenant.memory.Holds p ∨ ∃ i, w.watches i ≠ .untouched ∧ p ∈ (w.tenant.tasks i).placements

/-- The same on a resource of the table. -/
def Announced (w : Reaping) (p : Placement) : Prop :=
  p.resource.2 = w.tenant.memory.removed p.resource.1 ∧ w.Near p

/-- Requests place holds under their locks and after their watch. -/
structure Orderly (w : Reaping) : Prop where
  handled : w.tenant.Handled
  decided : ∀ i, w.watches i ≠ .untouched → (w.tenant.tasks i).Decided
  lowered : ∀ i, w.watches i = .lowered → (w.tenant.tasks i).expiries ≠ []
  sent : ∀ i request held pending, w.tenant.tasks i = .sent request held pending →
    ∀ p ∈ (w.tenant.tasks i).placements, w.watches i = .bumped

theorem on_orderly (e : Engine) : (on e).Orderly where
  handled := Tenant.on_handled e
  decided _ watched := absurd rfl watched
  lowered _ lowered := nomatch lowered
  sent _ _ _ _ sent := nomatch sent

/-- No hold is announced by a step of the tenant. -/
theorem Orderly.near (inv : w.Orderly) {a : Tenant.Action} {tenant : Tenant} (took : w.tenant.Took shards a tenant)
    {p : Placement} (near : { w with tenant }.Near p) : w.Near p := by
  rcases near with stands | ⟨i, watched, inside⟩
  · rcases took.holds inv.handled.routed stands with before | ⟨i, _, _, _, phase, inside⟩
    · exact .inl before
    · exact .inr ⟨i, by rw [inv.sent i _ _ _ phase p inside]; simp, inside⟩
  · rcases took.placements inside with before | undecided
    · exact .inr ⟨i, watched, before⟩
    · exact absurd (inv.decided i watched) undecided

theorem Orderly.announced (inv : w.Orderly) {a : Tenant.Action} {tenant : Tenant} (took : w.tenant.Took shards a tenant)
    {p : Placement} (announced : { w with tenant }.Announced p) : w.Announced p := by
  obtain ⟨current, near⟩ := announced
  refine ⟨?_, inv.near took near⟩
  rcases took.removed with same | ⟨r, removed⟩
  · rw [← same]
    exact current
  · simp only [removed, Memory.remove, Function.update_apply] at current
    split at current
    · -- Nothing stands on a resource that has just gone, and nobody has looked its successor up.
      next same =>
        have gone : tenant.memory.store.getResource p.resource.1 = none := by
          rw [removed, Memory.remove, InMemoryStore.removeResource_getResource, if_pos same]
        have now : p.resource.2 = tenant.memory.removed p.resource.1 := by
          simp only [removed, Memory.remove, Function.update_apply, same, if_true]
          exact current
        rcases near with ⟨_, found, _⟩ | ⟨i, _, inside⟩
        · rw [Memory.read, if_pos now, gone] at found
          cases found
        · have handled := inv.handled.took took
          have present := (handled.looked i _ (Task.held_handles (handled.placed inside))).2 now
          rw [gone] at present
          cases present
    · exact current

/-- A hold is announced only on a resource of the table. -/
theorem Orderly.present (inv : w.Orderly) {p : Placement} (announced : w.Announced p) :
    (w.tenant.memory.store.getResource p.resource.1).isSome := by
  obtain ⟨current, ⟨_, found, _⟩ | ⟨i, _, inside⟩⟩ := announced
  · rw [Memory.read, if_pos current] at found
    rw [found]
    rfl
  · exact (inv.handled.looked i _ (Task.held_handles (inv.handled.placed inside))).2 current

/-- A request between the two accesses of its watch has records that it may not queue yet. -/
theorem Orderly.stays (inv : w.Orderly) {a : Tenant.Action} {tenant : Tenant} (took : w.tenant.Took shards a tenant)
    (watched : ∀ i, a = .send i → (w.tenant.tasks i).expiries = [] ∨ w.watches i = .bumped) {i : TaskId}
    (lowered : w.watches i = .lowered) : tenant.tasks i = w.tenant.tasks i := by
  have some := inv.lowered i lowered
  obtain ⟨request, held, records, phase⟩ := Task.sending_of_expiries some
  apply took.sending_stays phase
  rintro rfl
  rcases watched i rfl with none | bumped
  · exact some none
  · rw [lowered] at bumped
    cases bumped

theorem Orderly.advance (inv : w.Orderly) {a : Tenant.Action} {tenant : Tenant} (took : w.tenant.Took shards a tenant)
    (watched : ∀ i, a = .send i → (w.tenant.tasks i).expiries = [] ∨ w.watches i = .bumped) :
    { w with tenant }.Orderly where
  handled := inv.handled.took took
  decided i watched := took.decided (inv.decided i watched)
  lowered i lowered := by
    rw [inv.stays took watched lowered]
    exact inv.lowered i lowered
  sent i request held pending phase p inside := by
    by_cases own : a.task = some i
    · cases took with
      | send before =>
          cases own
          refine (watched i rfl).resolve_left fun none => ?_
          have decided : p ∈ (w.tenant.tasks i).placements := by
            rw [before]
            simpa [Task.placements] using inside
          have expiry := Task.placements_expiries before decided
          rw [none] at expiry
          cases expiry
      | apply before =>
          cases own
          apply inv.sent i _ _ _ before p
          rw [before]
          exact Task.placements_rest (by simpa using inside)
      | start | lookUp | lock | allLocked | claim | check | release | fail | answer | refuse =>
          cases own
          simp at phase
      | _ => cases own
    · rw [took.tasks_other own] at phase inside
      exact inv.sent i request held pending phase p inside

/-- The watch of a request announces its own holds. -/
theorem lowerTo_near {i : TaskId} {earliest : Ms} {p : Placement} (near : (w.lowerTo i earliest).Near p) :
    w.Near p ∨ p ∈ (w.tenant.tasks i).placements := by
  rcases near with stands | ⟨j, watched, inside⟩
  · exact .inl (.inl stands)
  · by_cases same : j = i
    · exact .inr (same ▸ inside)
    · have before : (w.lowerTo i earliest).watches j = w.watches j := Function.update_of_ne same ..
      exact .inl (.inr ⟨j, before ▸ watched, inside⟩)

theorem bump_near {i : TaskId} (lowered : w.watches i = .lowered) {p : Placement}
    (near : Near { w with holdGeneration := w.holdGeneration + 1, watches := Function.update w.watches i .bumped } p) :
    w.Near p := by
  rcases near with stands | ⟨j, watched, inside⟩
  · exact .inl stands
  · refine .inr ⟨j, ?_, inside⟩
    by_cases same : j = i
    · rw [same, lowered]
      simp
    · have before : Function.update w.watches i .bumped j = w.watches j := Function.update_of_ne same ..
      exact before ▸ watched

theorem Orderly.lower (inv : w.Orderly) {i : TaskId} {earliest : Ms}
    (minimum : (w.tenant.tasks i).expiries.min? = some earliest) : (w.lowerTo i earliest).Orderly := by
  have some : (w.tenant.tasks i).expiries ≠ [] := List.ne_nil_of_mem (List.min?_eq_some_iff.mp minimum).1
  obtain ⟨request, held, records, phase⟩ := Task.sending_of_expiries some
  have others : ∀ j, j ≠ i → (w.lowerTo i earliest).watches j = w.watches j := fun j other => Function.update_of_ne other ..
  refine ⟨inv.handled, fun j watched => ?_, fun j lowered => ?_, fun j request' held' pending sent p inside => ?_⟩
  · by_cases same : j = i
    · rw [same, lowerTo_tenant, phase]
      trivial
    · exact inv.decided j (others j same ▸ watched)
  · by_cases same : j = i
    · rw [same]
      exact some
    · exact inv.lowered j (others j same ▸ lowered)
  · by_cases same : j = i
    · rw [same, lowerTo_tenant, phase] at sent
      cases sent
    · exact (others j same).trans (inv.sent j request' held' pending sent p inside)

theorem Orderly.bump (inv : w.Orderly) {i : TaskId} (lowered : w.watches i = .lowered) :
    Orderly { w with holdGeneration := w.holdGeneration + 1, watches := Function.update w.watches i .bumped } := by
  have others : ∀ j, j ≠ i → Function.update w.watches i .bumped j = w.watches j :=
    fun j other => Function.update_of_ne other ..
  refine ⟨inv.handled, fun j watched => ?_, fun j bumped => ?_, fun j request' held' pending sent p inside => ?_⟩
  · by_cases same : j = i
    · exact inv.decided j (by rw [same, lowered]; simp)
    · exact inv.decided j (others j same ▸ watched)
  · by_cases same : j = i
    · simp [same] at bumped
    · exact inv.lowered j (others j same ▸ bumped)
  · by_cases same : j = i
    · simp [same]
    · exact (others j same).trans (inv.sent j request' held' pending sent p inside)

theorem Orderly.keep (inv : w.Orderly) (tenant : w'.tenant = w.tenant) (watches : w'.watches = w.watches) :
    w'.Orderly := by
  refine ⟨?_, ?_, ?_, ?_⟩ <;> simp only [tenant, watches]
  exacts [inv.handled, inv.decided, inv.lowered, inv.sent]

theorem Orderly.took (inv : w.Orderly) (took : w.Took shards a w') : w'.Orderly := by
  cases took with
  | tenant took watched => exact inv.advance took watched
  | lower _ minimum => exact inv.lower minimum
  | bump lowered => exact inv.bump lowered
  | expire _ took =>
      exact (inv.advance took fun _ same => nomatch same).keep rfl rfl
  | _ => exact inv.keep rfl rfl

theorem mem_expiredOn {now : Ms} {h : Handle} {rs : ResourceState} {p : Placement} :
    p ∈ expiredOn now h rs ↔ p.resource = h ∧ p.expiresAt ≤ now ∧
      ∃ i ∈ rs.intervals, i.id = p.id ∧ i.kind = .hold p.expiresAt := by
  obtain ⟨resource, id, expiresAt⟩ := p
  constructor
  · intro inside
    obtain ⟨i, there, found⟩ := List.mem_filterMap.mp inside
    cases kind : i.kind with
    | hold expiry =>
        simp only [expiredAt, kind, Option.ite_none_right_eq_some, Option.some.injEq, Placement.mk.injEq] at found
        obtain ⟨due, rfl, rfl, rfl⟩ := found
        exact ⟨rfl, due, i, there, rfl, kind⟩
    | _ => simp [expiredAt, kind] at found
  · rintro ⟨rfl, due, i, there, rfl, kind⟩
    refine List.mem_filterMap.mpr ⟨i, there, ?_⟩
    simp only at due kind
    simp [expiredAt, kind, due]

/-- A scan reports what it takes. -/
theorem resource_expired {now : Ms} (h : Handle) (rs : ResourceState) (scan : Scan) :
    (scan.resource now rs).expired = scan.expired ++ (expiredOn now h rs).map fun p => (p.id, rs.id) := by
  have sees : ∀ intervals : List Interval, (intervals.foldl (Scan.see now rs) scan).expired =
      scan.expired ++ (intervals.filterMap (expiredAt now h)).map fun p => (p.id, rs.id) := by
    intro intervals
    induction intervals generalizing scan with
    | nil => simp
    | cons i rest ih =>
        rw [List.foldl_cons, ih]
        cases kind : i.kind with
        | hold expiresAt =>
            by_cases due : expiresAt ≤ now <;> simp [Scan.see, expiredAt, kind, due]
        | _ => simp [Scan.see, expiredAt, kind]
  exact sees rs.intervals

/-! ## Small runs -/

/-- What the first request and the first cycle do leaves the others where they are. -/
theorem run_others {actions : List Action}
    (first : actions.all (fun a => a.task.all (· = 0) && a.cycle.all (· = 0)) = true)
    (ran : Machine.run (step shards) actions w = some w') :
    (∀ i, i ≠ 0 → w'.tenant.tasks i = w.tenant.tasks i ∧ w'.watches i = w.watches i) ∧
      ∀ c, c ≠ 0 → w'.cycles c = w.cycles c := by
  have own : ∀ a ∈ actions, (∀ i, a.task = some i → i = 0) ∧ ∀ c, a.cycle = some c → c = 0 := by
    simpa [Option.all_eq_true] using first
  refine ⟨fun i other => ?_, fun c other => ?_⟩
  · refine Prod.mk.inj (Machine.run_unchanged (fun w => (w.tenant.tasks i, w.watches i)) (fun a inside s s' taken => ?_) ran)
    have kept := (took taken).task_other (fun same => other ((own a inside).1 i same))
    exact Prod.ext kept.1 kept.2
  · exact Machine.run_unchanged (fun w => w.cycles c)
      (fun a inside s s' taken => (took taken).cycle_other fun same => other ((own a inside).2 c same)) ran

def bareRoom : Engine := (Engine.start 0 1000).next (.op (.createResource 1 none none 1 none))

/-- A request for a hold up to its watch. -/
def admitting (i : TaskId) (expiresAt : Ms) : List Action :=
  [.tenant (.start i (.placeHold 9 1 ⟨⟨10, 20⟩, Tenant.slot_valid⟩ expiresAt)), .tenant (.lookUp i), .tenant (.lock i),
   .tenant (.allLocked i), .tenant (.claim i), .tenant (.check i 0 Tenant.noRules)]

/-- From the second access of its watch on. -/
def placed (i : TaskId) : List Action :=
  [.bump i, .tenant (.send i), .tenant (.apply i), .tenant (.release i), .tenant (.flush 1 true), .tenant (.answer i)]

/-- A cycle up to its scan of the room. -/
def looking (now : Ms) : List Action := [.collect 0 now, .loadGeneration 0, .list 0 [1], .allListed 0, .look 0]

/-- A request for the removal of the hold that has been started, up to its change of memory. -/
def removing (i : TaskId) : List Action :=
  [.tenant (.lookUp i), .tenant (.lock i), .tenant (.allLocked i), .tenant (.check i 0 Tenant.noRules), .tenant (.send i),
   .tenant (.flush 1 true)]

end Reaping

end Deltat
