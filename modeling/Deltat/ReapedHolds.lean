import Deltat.ReaperSteps

/-! # The reaper expires what it has collected

Between the collection of a hold and its removal the removal has only the hold's id. As long as
no live hold comes to bear an id that a cycle waits to expire, a cycle removes expired holds only.
-/

namespace Deltat

open Lib Machine Limits

/-- Whether a cycle is about to expire the holds of an id that have expired by a time. -/
def Cycle.Awaits (x : Ulid) (now : Ms) : Cycle → Prop
  | .scanning now' _ scan _ _ => now' = now ∧ x ∈ scan.expired.map (·.1)
  | .publishing now' _ expired | .collected now' expired => now' = now ∧ x ∈ expired.map (·.1)
  | .expiring now' id _ rest => now' = now ∧ x ∈ id :: rest.map (·.1)
  | _ => False

/-- Whether a request is one that expires the hold of an id. -/
def Task.Expires (x : Ulid) : Task → Prop
  | .locking request _ _ _ _ | .claiming request _ _ _ _ => request.1 = .removeHold x
  | .sending _ _ records => ∃ r, records = [.holdReleased x r]
  | .sent _ _ pending => ∀ q ∈ pending, ∃ r, q.2 = .holdReleased x r
  | .waiting _ | .answered _ => True
  | .idle => False

theorem Tenant.Took.expires {shards : Shards} {t t' : Tenant} {a : Tenant.Action} (took : t.Took shards a t')
    {i : TaskId} {x : Ulid} (expires : (t.tasks i).Expires x) : (t'.tasks i).Expires x := by
  by_cases own : a.task = some i
  · cases took with
    | start phase =>
        cases own
        rw [phase] at expires
        exact expires.elim
    | lookUp phase | lock phase | allLocked phase | claim phase =>
        cases own
        rw [phase] at expires
        simp only [Tenant.setTask_self]
        exact expires
    | check phase _ admitted =>
        cases own
        rw [phase] at expires
        rw [show _ = _ from expires] at admitted
        obtain ⟨r, _, _, same, _⟩ := Request.admitEntity_ok admitted
        simp only [Tenant.setTask_self]
        exact ⟨r, same⟩
    | send phase =>
        cases own
        rw [phase] at expires
        obtain ⟨r, rfl⟩ := expires
        simp only [Tenant.setTask_self]
        intro q queued
        have written := (Tenant.mem_pendingOn.mp queued).2.1
        exact ⟨r, by simpa [Event.perResource] using written⟩
    | apply phase =>
        cases own
        rw [phase] at expires
        simp only [Tenant.setTask_self]
        exact fun q queued => expires q (List.mem_cons_of_mem _ queued)
    | release | fail | answer | refuse =>
        cases own
        simp [Task.Expires]
    | _ => cases own
  · rwa [took.tasks_other own]

namespace Reaping

variable {shards : Shards} {w w' : Reaping} {a : Action}

/-- No live hold comes to bear an id that a cycle awaits: none is placed, and none bears an id
    that is collected. -/
def Unreused (w : Reaping) : Action → Prop
  | .lower i => ∀ p ∈ (w.tenant.tasks i).placements, ∀ c now, (w.cycles c).Awaits p.id now → p.expiresAt ≤ now
  | .scan c => ∀ now before scan h rest rs, w.cycles c = .scanning now before scan (some h) rest →
      w.tenant.memory.read h = some rs → ∀ q ∈ expiredOn now h rs, ∀ p, w.Announced p → p.id = q.id → p.expiresAt ≤ now
  | _ => True

/-- Of the ids that cycles await only expired holds are known. -/
structure Awaiting (w : Reaping) : Prop where
  orderly : w.Orderly
  awaited : ∀ c x now, (w.cycles c).Awaits x now → ∀ p, w.Announced p → p.id = x → p.expiresAt ≤ now
  expiring : ∀ c now x i rest, w.cycles c = .expiring now x i rest → (w.tenant.tasks i).Expires x ∧
    ∀ h ∈ (w.tenant.tasks i).handles, ∀ p, w.Near p → p.resource = h → p.id = x → p.expiresAt ≤ now

theorem on_awaiting (e : Engine) : (on e).Awaiting where
  orderly := on_orderly e
  awaited _ _ _ awaits := awaits.elim
  expiring _ _ _ _ _ phase := nomatch phase

theorem Awaiting.advance (inv : w.Awaiting) {a : Tenant.Action} {tenant : Tenant} (took : w.tenant.Took shards a tenant)
    (watched : ∀ i, a = .send i → (w.tenant.tasks i).expiries = [] ∨ w.watches i = .bumped) :
    { w with tenant }.Awaiting where
  orderly := inv.orderly.advance took watched
  awaited c x now awaits p announced := inv.awaited c x now awaits p (inv.orderly.announced took announced)
  expiring c now x i rest phase := by
    obtain ⟨expires, known⟩ := inv.expiring c now x i rest phase
    refine ⟨took.expires expires, fun h inside p near here same => ?_⟩
    have near := inv.orderly.near took near
    rcases took.looked inside with before | found
    · exact known h before p near here same
    · -- The request has just found the resource in the table.
      have awaits : (w.cycles c).Awaits x now := by
        rw [phase]
        exact ⟨rfl, List.mem_cons_self⟩
      exact inv.awaited c x now awaits p ⟨here ▸ (Tenant.lookUp_eq.mp found).1, near⟩ same

theorem Awaiting.lower (inv : w.Awaiting) {i : TaskId} {earliest : Ms}
    (minimum : (w.tenant.tasks i).expiries.min? = some earliest) (apart : w.Unreused (.lower i)) :
    (w.lowerTo i earliest).Awaiting where
  orderly := inv.orderly.lower minimum
  awaited c x now awaits p announced same := by
    rcases lowerTo_near announced.2 with before | own
    · exact inv.awaited c x now awaits p ⟨announced.1, before⟩ same
    · exact apart p own c now (same ▸ awaits)
  expiring c now x j rest phase := by
    obtain ⟨expires, known⟩ := inv.expiring c now x j rest phase
    refine ⟨expires, fun h inside p near here same => ?_⟩
    rcases lowerTo_near near with before | own
    · exact known h inside p before here same
    · have awaits : (w.cycles c).Awaits x now := by
        rw [← lowerTo_cycles, phase]
        exact ⟨rfl, List.mem_cons_self⟩
      exact apart p own c now (same ▸ awaits)

/-- A cycle moves on and awaits nothing new. -/
theorem Awaiting.keep (inv : w.Awaiting) {c : Nat} {cycle : Cycle}
    (tenant : w'.tenant = w.tenant) (watches : w'.watches = w.watches)
    (cycles : w'.cycles = Function.update w.cycles c cycle)
    (awaits : ∀ x now, cycle.Awaits x now → ∀ p, w.Announced p → p.id = x → p.expiresAt ≤ now)
    (back : ∀ now x i rest, cycle ≠ .expiring now x i rest) : w'.Awaiting := by
  have near : w'.Near = w.Near := by
    funext p
    simp only [Near, tenant, watches]
  have announced : w'.Announced = w.Announced := by
    funext p
    simp only [Announced, near, tenant]
  refine ⟨inv.orderly.keep tenant watches, fun d x now awaited => ?_, fun d now x i rest phase => ?_⟩
  · rw [cycles, Function.update_apply] at awaited
    rw [announced]
    split at awaited
    · exact awaits x now awaited
    · exact inv.awaited d x now awaited
  · rw [cycles, Function.update_apply] at phase
    rw [tenant, near]
    split at phase
    · exact absurd phase (back now x i rest)
    · exact inv.expiring d now x i rest phase

theorem Awaiting.scan (inv : w.Awaiting) {c : Nat} {now : Ms} {before : Nat} {scan : Scan} {h : Handle}
    {rest : List Ulid} {rs : ResourceState} (phase : w.cycles c = .scanning now before scan (some h) rest)
    (present : w.tenant.memory.read h = some rs) (apart : w.Unreused (.scan c)) :
    Awaiting { w.setCycle c (.scanning now before (scan.resource now rs) none rest) with
      taken := expiredOn now h rs ++ w.taken } := by
  refine inv.keep rfl rfl rfl (fun x now' awaits p announced same => ?_) fun _ _ _ _ same => nomatch same
  obtain ⟨rfl, reported⟩ := awaits
  rw [resource_expired h, List.map_append, List.mem_append] at reported
  rcases reported with already | found
  · exact inv.awaited c x now (by rw [phase]; exact ⟨rfl, already⟩) p announced same
  · simp only [List.map_map, List.mem_map, Function.comp_apply] at found
    obtain ⟨q, expired, rfl⟩ := found
    exact apart now before scan h rest rs phase present q expired p announced same

theorem prepared_removal {e : Engine} {id : Ulid} {request : Request.Prepared}
    (prepared : (Request.removeHold id).prepared e = .ok request) : request.1 = .removeHold id := by
  unfold Request.prepared at prepared
  split at prepared
  · next passed =>
      cases passed
      cases prepared
      rfl
  · cases prepared

/-- A cycle requests the removal of an id that it awaits. -/
theorem Awaiting.expire (inv : w.Awaiting) {c : Nat} {i : TaskId} {now : Ms} {id rid : Ulid}
    {rest : List (Ulid × Ulid)} {tenant : Tenant} (phase : w.cycles c = .collected now ((id, rid) :: rest))
    (took : w.tenant.Took shards (.start i (.removeHold id)) tenant) :
    Awaiting { w.setCycle c (.expiring now id i rest) with tenant } := by
  have moved := inv.advance took fun _ same => nomatch same
  refine ⟨moved.orderly.keep rfl rfl, fun d x now' awaits => ?_, fun d now' x j rest' phase' => ?_⟩
  · simp only [setCycle_cycles] at awaits
    split at awaits
    · apply moved.awaited c x now'
      rw [phase]
      exact awaits
    · exact moved.awaited d x now' awaits
  · simp only [setCycle_cycles] at phase'
    split at phase'
    · cases phase'
      cases took with
      | start _ prepared =>
          simp only [Tenant.setTask_self]
          refine ⟨prepared_removal prepared, fun h inside => ?_⟩
          simp [Task.handles] at inside
    · exact moved.expiring d now' x j rest' phase'

theorem Awaiting.took (inv : w.Awaiting) (took : w.Took shards a w') (apart : w.Unreused a) : w'.Awaiting := by
  cases took with
  | tenant took watched => exact inv.advance took watched
  | lower _ minimum => exact inv.lower minimum apart
  | bump lowered =>
      refine ⟨inv.orderly.bump lowered, fun c x now awaits p announced => ?_, fun c now x i rest phase => ?_⟩
      · exact inv.awaited c x now awaits p ⟨announced.1, bump_near lowered announced.2⟩
      · obtain ⟨expires, known⟩ := inv.expiring c now x i rest phase
        exact ⟨expires, fun h inside p near => known h inside p (bump_near lowered near)⟩
  | lowerStopped | bumpStopped => exact ⟨inv.orderly.keep rfl rfl, inv.awaited, inv.expiring⟩
  | scan phase _ present => exact inv.scan phase present apart
  | expire phase took => exact inv.expire phase took
  | early =>
      exact inv.keep rfl rfl rfl (fun _ _ awaits => (List.not_mem_nil awaits.2).elim) fun _ _ _ _ same => nomatch same
  | due | loadGeneration | list | finish =>
      exact inv.keep rfl rfl rfl (fun _ _ awaits => awaits.elim) fun _ _ _ _ same => nomatch same
  | allListed =>
      exact inv.keep rfl rfl rfl (fun _ _ awaits => (List.not_mem_nil awaits.2).elim) fun _ _ _ _ same => nomatch same
  | @look c _ _ _ _ _ phase | @skip c _ _ _ _ _ phase | @unchanged c _ _ _ phase | @raced c _ _ _ phase
  | @publish c _ _ _ phase =>
      refine inv.keep rfl rfl rfl (fun x now awaits => inv.awaited c x now ?_) fun _ _ _ _ same => nomatch same
      rw [phase]
      exact awaits
  | @expired c _ _ _ _ _ phase | @pass c _ _ _ _ phase =>
      refine inv.keep rfl rfl rfl (fun x now awaits => inv.awaited c x now ?_) fun _ _ _ _ same => nomatch same
      rw [phase]
      exact ⟨awaits.1, List.mem_cons_of_mem _ awaits.2⟩

/-- In every run in which no live hold comes to bear an id that a cycle awaits, what a cycle is
    about to remove under the lock, and to report, is a hold that had expired when it looked. -/
theorem expires_only_expired {e : Engine} (reached : Reaches (step shards) Unreused (on e) w) {c : Nat} {now : Ms}
    {x : Ulid} {i : TaskId} {rest : List (Ulid × Ulid)} (phase : w.cycles c = .expiring now x i rest) :
    (∀ q ∈ (w.tenant.tasks i).pending, q.1 ∈ (w.tenant.tasks i).held ∧ ∃ r, q.2 = .holdReleased x r) ∧
      ∀ h ∈ (w.tenant.tasks i).held, ∀ rs, w.tenant.memory.read h = some rs → ∀ hold ∈ rs.intervals, hold.id = x →
        ∀ expiresAt, hold.kind = .hold expiresAt → expiresAt ≤ now := by
  have inv := reached.invariant (on_awaiting e) fun _ _ _ inv apart taken => inv.took (Reaping.took taken) apart
  obtain ⟨expires, known⟩ := inv.expiring c now x i rest phase
  constructor
  · intro q queued
    refine ⟨inv.orderly.handled.held i q queued, ?_⟩
    cases task : w.tenant.tasks i <;> simp only [task, Task.pending, List.not_mem_nil] at queued
    rw [task] at expires
    exact expires q queued
  · intro h inside rs found hold there same expiresAt kind
    exact known h (Task.held_handles inside) ⟨h, x, expiresAt⟩ (.inl ⟨rs, found, hold, there, same, kind⟩) rfl rfl

/-! ## An id used twice -/

/-- A hold is placed and collected. -/
def collectingOne : List Action :=
  admitting 0 10 ++ [.lower 0] ++ placed 0 ++ [.tenant (.tick 20)] ++ looking 20 ++ [.scan 0, .recheck 0, .publish 0]

/-- A client releases the collected hold and places one with the same id, and the cycle goes on. -/
def reusing : List Action :=
  collectingOne ++ [.tenant (.start 1 (.removeHold 9))] ++ removing 1 ++
    [.tenant (.apply 1), .tenant (.release 1), .tenant (.answer 1)] ++ admitting 2 100 ++ [.lower 2] ++ placed 2 ++
    [.expire 0 3] ++ removing 3

/-- A hold that is live until 100 is taken away by a cycle of 20. -/
theorem live_hold_expired : ∃ w w' rs rs', Reaches (step Tenant.oneShard) (fun _ _ => True) (on bareRoom) w ∧
    w.cycles 0 = .expiring 20 9 3 [] ∧ w.step Tenant.oneShard (.tenant (.apply 3)) = some w' ∧
    w.tenant.memory.store.getResource 1 = some rs ∧ ⟨9, ⟨10, 20⟩, .hold 100⟩ ∈ rs.intervals ∧
    w'.tenant.memory.store.getResource 1 = some rs' ∧ rs'.intervals = [] := by
  have possible : ((Machine.run (step Tenant.oneShard) reusing (on bareRoom)).bind fun w =>
      (w.step Tenant.oneShard (.tenant (.apply 3))).map fun w' =>
        (w.cycles 0, (w.tenant.memory.store.getResource 1).map (·.intervals),
          (w'.tenant.memory.store.getResource 1).map (·.intervals))) =
    some (.expiring 20 9 3 [], some [⟨9, ⟨10, 20⟩, .hold 100⟩], some []) := by decide +kernel
  obtain ⟨w, ran, possible⟩ := Option.bind_eq_some_iff.mp possible
  obtain ⟨w', applied, facts⟩ := Option.map_eq_some_iff.mp possible
  simp only [Prod.mk.injEq] at facts
  obtain ⟨phase, before, after⟩ := facts
  obtain ⟨rs, found, intervals⟩ := Option.map_eq_some_iff.mp before
  obtain ⟨rs', found', intervals'⟩ := Option.map_eq_some_iff.mp after
  exact ⟨w, w', rs, rs', Machine.reaches_of_run (fun _ _ _ => trivial) ran, phase, applied, found,
    by rw [intervals]; exact List.mem_cons_self, found', intervals'⟩

/-- The collected hold is removed while nobody uses its id. -/
theorem expired_hold_removed : ∃ w, Reaches (step Tenant.oneShard) Unreused (on bareRoom) w ∧
    w.cycles 0 = .expiring 20 9 3 [] ∧ (w.tenant.tasks 3).pending = [((1, 0), .holdReleased 9 1)] ∧
    (∀ q ∈ (w.tenant.tasks 3).pending, q.1 ∈ (w.tenant.tasks 3).held ∧ ∃ r, q.2 = .holdReleased 9 r) ∧
    ∀ h ∈ (w.tenant.tasks 3).held, ∀ rs, w.tenant.memory.read h = some rs → ∀ hold ∈ rs.intervals, hold.id = 9 →
      ∀ expiresAt, hold.kind = .hold expiresAt → expiresAt ≤ 20 := by
  have possible : ((Machine.run (step Tenant.oneShard) (admitting 0 10) (on bareRoom)).bind fun w₁ =>
      (w₁.step Tenant.oneShard (.lower 0)).bind fun w₂ =>
      (Machine.run (step Tenant.oneShard) (placed 0 ++ [.tenant (.tick 20)] ++ looking 20) w₂).bind fun w₃ =>
      (w₃.step Tenant.oneShard (.scan 0)).bind fun w₄ =>
      (Machine.run (step Tenant.oneShard) ([.recheck 0, .publish 0, .expire 0 3] ++ removing 3) w₄).map fun w =>
        decide (w₁.cycles 0 = .idle ∧ w₃.cycles 0 = .scanning 20 1 .empty (some (1, 0)) [] ∧
          (w₃.tenant.tasks 0).placements = [] ∧ w₃.tenant.memory.store.resourceIds = [1] ∧
          (w₃.tenant.memory.store.getResource 1).map (·.intervals) = some [⟨9, ⟨10, 20⟩, .hold 10⟩] ∧
          w.cycles 0 = .expiring 20 9 3 [] ∧ (w.tenant.tasks 3).pending = [((1, 0), .holdReleased 9 1)])) =
    some true := by decide +kernel
  obtain ⟨w₁, ran₁, possible⟩ := Option.bind_eq_some_iff.mp possible
  obtain ⟨w₂, lowered, possible⟩ := Option.bind_eq_some_iff.mp possible
  obtain ⟨w₃, ran₃, possible⟩ := Option.bind_eq_some_iff.mp possible
  obtain ⟨w₄, scanned, possible⟩ := Option.bind_eq_some_iff.mp possible
  obtain ⟨w, ran, facts⟩ := Option.map_eq_some_iff.mp possible
  obtain ⟨idle, scanning, placements, listed, room, phase, pending⟩ := of_decide_eq_true facts
  have nobody : ∀ c, w₁.cycles c = .idle := by
    intro c
    by_cases first : c = 0
    · rw [first]
      exact idle
    · exact (run_others (by rfl) ran₁).2 c first
  have reached₁ : Reaches (step Tenant.oneShard) Unreused (on bareRoom) w₁ :=
    Machine.reaches_of_run (by simp [admitting, Unreused]) ran₁
  have apart₁ : w₁.Unreused (.lower 0) := by
    intro p _ c now awaits
    rw [nobody c] at awaits
    exact awaits.elim
  have reached₃ := (reached₁.next (.lower 0) apart₁ lowered).run (by simp [placed, looking, Unreused]) ran₃
  have apart₃ : w₃.Unreused (.scan 0) := by
    intro now _ _ _ _ _ phase₃ _ q _ p announced _
    rw [scanning] at phase₃
    cases phase₃
    obtain ⟨current, ⟨rs, found, i, inside, _, kind⟩ | ⟨j, watched, inside⟩⟩ := announced
    · rw [Memory.read, if_pos current] at found
      have here : p.resource.1 ∈ w₃.tenant.memory.store.resourceIds := Engine.mem_resourceIds.mpr (by rw [found]; rfl)
      rw [listed, List.mem_singleton] at here
      rw [here] at found
      have intervals : rs.intervals = [⟨9, ⟨10, 20⟩, .hold 10⟩] := by simpa [found] using room
      rw [intervals, List.mem_singleton] at inside
      subst inside
      rw [← IntervalKind.hold.inj kind]
      decide
    · have first : j = 0 := by
        by_contra other
        apply watched
        rw [((run_others (by rfl) ran₃).1 j other).2,
          ((took lowered).task_other fun same => other (Option.some.inj same).symm).2,
          ((run_others (by rfl) ran₁).1 j other).2]
        rfl
      rw [first, placements] at inside
      cases inside
  have reached₄ := reached₃.next (.scan 0) apart₃ scanned
  have reached := reached₄.run (by simp [removing, Unreused]) ran
  exact ⟨w, reached, phase, pending, expires_only_expired reached phase⟩

end Reaping

end Deltat
