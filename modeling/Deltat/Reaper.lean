import Deltat.EntityIds

/-! # The reaper and its watermark

The reaper looks for expired holds and then expires them one by one, with requests in between.
A lower bound on what can expire next spares it most searches. Every access to the bound and
to the generation of placements is a step of its own.
-/

namespace Deltat

open Limits

/-- A hold as it stands, or is about to stand, on a resource. -/
structure Placement where
  resource : Handle
  id : Ulid
  expiresAt : Ms
  deriving DecidableEq

namespace Event

/-- The expiry of the hold that a record places. -/
def expiry : Event → Option Ms
  | holdPlaced _ _ _ expiresAt => some expiresAt
  | _ => none

/-- The hold that a change places on a resource. -/
def placement (h : Handle) : Event → Option Placement
  | holdPlaced id _ _ expiresAt => some ⟨h, id, expiresAt⟩
  | _ => none

end Event

namespace Task

/-- The holds that a request has decided to place and not applied. -/
def placements : Task → List Placement
  | sending _ held records => (Tenant.pendingOn held records).filterMap fun p => p.2.placement p.1
  | sent _ _ pending => pending.filterMap fun p => p.2.placement p.1
  | _ => []

/-- The expiries in the records that a request is about to queue. -/
def expiries : Task → List Ms
  | sending _ _ records => records.filterMap Event.expiry
  | _ => []

end Task

/-- How far a request is with `watch_hold_expiry`. -/
inductive Watch where
  | untouched
  /-- The bound is lowered. -/
  | lowered
  /-- The generation is bumped. -/
  | bumped
  deriving DecidableEq

/-- What a scan of the resources has found. -/
structure Scan where
  expired : List (Ulid × Ulid)
  nextEarliest : Ms
  hadLocked : Bool
  deriving DecidableEq

namespace Scan

def empty : Scan := ⟨[], i64Max, false⟩

/-- Look at an interval of a resource. -/
def see (now : Ms) (rs : ResourceState) (scan : Scan) (interval : Interval) : Scan :=
  match interval.kind with
  | .hold expiresAt =>
      if expiresAt ≤ now then { scan with expired := scan.expired ++ [(interval.id, rs.id)] }
      else { scan with nextEarliest := min scan.nextEarliest expiresAt }
  | _ => scan

/-- Look at every interval of a resource. -/
def resource (now : Ms) (scan : Scan) (rs : ResourceState) : Scan := rs.intervals.foldl (see now rs) scan

/-- The bound that the scan allows. -/
def bound (scan : Scan) : Ms := if scan.hadLocked then i64Min else scan.nextEarliest

end Scan

/-- The progress of one cycle of the reaper. -/
inductive Cycle where
  | idle
  /-- Past the look at the bound. -/
  | due (now : Ms)
  /-- With the generation it saw, reading the resource table shard by shard. -/
  | listing (now : Ms) (before : Nat) (visited : Nat) (ids : List Ulid)
  /-- Scanning one resource after the other: the one found, and those not looked up. -/
  | scanning (now : Ms) (before : Nat) (scan : Scan) (found : Option Handle) (rest : List Ulid)
  /-- Past the second look at the generation. -/
  | publishing (now : Ms) (bound : Ms) (expired : List (Ulid × Ulid))
  /-- Back with what it has collected. -/
  | collected (now : Ms) (expired : List (Ulid × Ulid))
  /-- Waiting for the request that expires one of them. -/
  | expiring (now : Ms) (id : Ulid) (task : TaskId) (rest : List (Ulid × Ulid))
  deriving DecidableEq

structure Reaping where
  tenant : Tenant
  earliestHoldExpiry : Ms
  /-- How often a placement has bumped it. The counter has 64 bits and wraps. -/
  holdGeneration : Nat
  watches : TaskId → Watch
  cycles : Nat → Cycle
  /-- The holds that a cycle has collected and nobody has placed since. -/
  taken : List Placement

namespace Reaping

/-- A tenant after a start: the bound says nothing. -/
def on (e : Engine) : Reaping := ⟨.on e, i64Min, 0, fun _ => .untouched, fun _ => .idle, []⟩

variable (w : Reaping)

def setCycle (c : Nat) (cycle : Cycle) : Reaping := { w with cycles := Function.update w.cycles c cycle }

/-- A step of the tenant. Records that place holds are queued after their watch. -/
def advance (shards : Shards) (a : Tenant.Action) : Option Reaping :=
  match a with
  | .send i =>
      if (w.tenant.tasks i).expiries = [] ∨ w.watches i = .bumped then
        (w.tenant.step shards (.send i)).map fun tenant => { w with tenant }
      else none
  | a => (w.tenant.step shards a).map fun tenant => { w with tenant }

/-! ## Watching an expiry -/

def lowerTo (i : TaskId) (earliest : Ms) : Reaping :=
  { w with
    earliestHoldExpiry := min w.earliestHoldExpiry earliest
    watches := Function.update w.watches i .lowered
    taken := w.taken.filter (· ∉ (w.tenant.tasks i).placements) }

/-- Lower the bound to the earliest expiry of what is about to be placed. -/
def lower (i : TaskId) : Option Reaping :=
  match w.watches i, (w.tenant.tasks i).expiries.min? with
  | .untouched, some earliest => some (w.lowerTo i earliest)
  | _, _ => none

def bump (i : TaskId) : Option Reaping :=
  match w.watches i with
  | .lowered => some { w with
      holdGeneration := w.holdGeneration + 1
      watches := Function.update w.watches i .bumped }
  | _ => none

/-- A placement that passes its checks on a tenant that has stopped comes this far too. -/
def lowerStopped (expiresAt : Ms) : Option Reaping :=
  if w.tenant.writer.failed then some { w with earliestHoldExpiry := min w.earliestHoldExpiry expiresAt } else none

def bumpStopped : Option Reaping :=
  if w.tenant.writer.failed then some { w with holdGeneration := w.holdGeneration + 1 } else none

/-! ## Collecting -/

/-- The look at the bound. -/
def collect (c : Nat) (now : Ms) : Option Reaping :=
  match w.cycles c with
  | .idle => some (w.setCycle c (if now < w.earliestHoldExpiry then .collected now [] else .due now))
  | _ => none

def loadGeneration (c : Nat) : Option Reaping :=
  match w.cycles c with
  | .due now => some (w.setCycle c (.listing now w.holdGeneration 0 []))
  | _ => none

/-- Read the ids of the next shard, in any order. -/
def list (shards : Shards) (c : Nat) (ids : List Ulid) : Option Reaping :=
  match w.cycles c with
  | .listing now before visited listed =>
      if visited < shards.count ∧
          ids.Perm (w.tenant.memory.store.resourceIds.filter fun r => (shards.of r).val = visited) then
        some (w.setCycle c (.listing now before (visited + 1) (listed ++ ids)))
      else none
  | _ => none

def allListed (shards : Shards) (c : Nat) : Option Reaping :=
  match w.cycles c with
  | .listing now before visited ids =>
      if visited = shards.count then some (w.setCycle c (.scanning now before .empty none ids)) else none
  | _ => none

/-- Look the next resource up, or skip it when it is gone. -/
def look (c : Nat) : Option Reaping :=
  match w.cycles c with
  | .scanning now before scan none (rid :: rest) =>
      some (w.setCycle c (.scanning now before scan (w.tenant.memory.lookUp rid) rest))
  | _ => none

def expiredAt (now : Ms) (h : Handle) (interval : Interval) : Option Placement :=
  match interval.kind with
  | .hold expiresAt => if expiresAt ≤ now then some ⟨h, interval.id, expiresAt⟩ else none
  | _ => none

/-- The holds of a resource that have expired. -/
def expiredOn (now : Ms) (h : Handle) (rs : ResourceState) : List Placement :=
  rs.intervals.filterMap (expiredAt now h)

/-- Scan a resource whose lock is free. -/
def scan (c : Nat) : Option Reaping :=
  match w.cycles c with
  | .scanning now before scan (some h) rest =>
      match w.tenant.lockedBy h, w.tenant.memory.read h with
      | none, some rs => some { w.setCycle c (.scanning now before (scan.resource now rs) none rest) with
          taken := expiredOn now h rs ++ w.taken }
      | _, _ => none
  | _ => none

/-- Somebody has the lock, or is queued for it. -/
def skip (c : Nat) : Option Reaping :=
  match w.cycles c with
  | .scanning now before scan (some _) rest =>
      some (w.setCycle c (.scanning now before { scan with hadLocked := true } none rest))
  | _ => none

/-- The second look at the generation. -/
def recheck (c : Nat) : Option Reaping :=
  match w.cycles c with
  | .scanning now before scan none [] =>
      some (w.setCycle c (if w.holdGeneration % 2 ^ 64 = before % 2 ^ 64 then .publishing now scan.bound scan.expired
        else .collected now scan.expired))
  | _ => none

def publish (c : Nat) : Option Reaping :=
  match w.cycles c with
  | .publishing now bound expired => some { w.setCycle c (.collected now expired) with earliestHoldExpiry := bound }
  | _ => none

/-! ## Expiring -/

/-- Request the removal of the next one. -/
def expire (c : Nat) (i : TaskId) : Option Reaping :=
  match w.cycles c with
  | .collected now ((id, _) :: rest) => (w.tenant.start i (.removeHold id)).map fun tenant =>
      { w.setCycle c (.expiring now id i rest) with tenant }
  | _ => none

/-- The removal has been answered. -/
def expired (c : Nat) : Option Reaping :=
  match w.cycles c with
  | .expiring now _ i rest =>
      match w.tenant.tasks i with
      | .answered _ => some (w.setCycle c (.collected now rest))
      | _ => none
  | _ => none

/-- The next one is gone. -/
def pass (c : Nat) : Option Reaping :=
  match w.cycles c with
  | .collected now ((id, _) :: rest) =>
      if w.tenant.memory.store.getResourceForEntity id = none then some (w.setCycle c (.collected now rest)) else none
  | _ => none

/-- End the cycle. Other callers than the reaper's loop stop with what was collected. -/
def finish (c : Nat) : Option Reaping :=
  match w.cycles c with
  | .collected .. => some (w.setCycle c .idle)
  | _ => none

/-! ## Steps -/

inductive Action where
  | tenant (a : Tenant.Action)
  | lower (i : TaskId)
  | bump (i : TaskId)
  | lowerStopped (expiresAt : Ms)
  | bumpStopped
  | collect (c : Nat) (now : Ms)
  | loadGeneration (c : Nat)
  | list (c : Nat) (ids : List Ulid)
  | allListed (c : Nat)
  | look (c : Nat)
  | scan (c : Nat)
  | skip (c : Nat)
  | recheck (c : Nat)
  | publish (c : Nat)
  | expire (c : Nat) (i : TaskId)
  | expired (c : Nat)
  | pass (c : Nat)
  | finish (c : Nat)

/-- What an action leads to, when it is possible. -/
def step (shards : Shards) (w : Reaping) : Action → Option Reaping
  | .tenant a => w.advance shards a
  | .lower i => w.lower i
  | .bump i => w.bump i
  | .lowerStopped expiresAt => w.lowerStopped expiresAt
  | .bumpStopped => w.bumpStopped
  | .collect c now => w.collect c now
  | .loadGeneration c => w.loadGeneration c
  | .list c ids => w.list shards c ids
  | .allListed c => w.allListed shards c
  | .look c => w.look c
  | .scan c => w.scan c
  | .skip c => w.skip c
  | .recheck c => w.recheck c
  | .publish c => w.publish c
  | .expire c i => w.expire c i
  | .expired c => w.expired c
  | .pass c => w.pass c
  | .finish c => w.finish c

/-- A step with everything that makes it possible. -/
inductive Took (shards : Shards) (w : Reaping) : Action → Reaping → Prop where
  | tenant {a : Tenant.Action} {tenant : Tenant} (took : w.tenant.Took shards a tenant)
      (watched : ∀ i, a = .send i → (w.tenant.tasks i).expiries = [] ∨ w.watches i = .bumped) :
      Took shards w (.tenant a) { w with tenant }
  | lower {i : TaskId} {earliest : Ms} (fresh : w.watches i = .untouched)
      (min : (w.tenant.tasks i).expiries.min? = some earliest) :
      Took shards w (.lower i) (w.lowerTo i earliest)
  | bump {i : TaskId} (lowered : w.watches i = .lowered) :
      Took shards w (.bump i) { w with
        holdGeneration := w.holdGeneration + 1, watches := Function.update w.watches i .bumped }
  | lowerStopped (expiresAt : Ms) : Took shards w (.lowerStopped expiresAt)
      { w with earliestHoldExpiry := Min.min w.earliestHoldExpiry expiresAt }
  | bumpStopped : Took shards w .bumpStopped { w with holdGeneration := w.holdGeneration + 1 }
  | early {c : Nat} {now : Ms} (phase : w.cycles c = .idle) (early : now < w.earliestHoldExpiry) :
      Took shards w (.collect c now) (w.setCycle c (.collected now []))
  | due {c : Nat} {now : Ms} (phase : w.cycles c = .idle) (due : w.earliestHoldExpiry ≤ now) :
      Took shards w (.collect c now) (w.setCycle c (.due now))
  | loadGeneration {c : Nat} {now : Ms} (phase : w.cycles c = .due now) :
      Took shards w (.loadGeneration c) (w.setCycle c (.listing now w.holdGeneration 0 []))
  | list {c : Nat} {now : Ms} {before visited : Nat} {listed ids : List Ulid}
      (phase : w.cycles c = .listing now before visited listed) (more : visited < shards.count)
      (shard : ids.Perm (w.tenant.memory.store.resourceIds.filter fun r => (shards.of r).val = visited)) :
      Took shards w (.list c ids) (w.setCycle c (.listing now before (visited + 1) (listed ++ ids)))
  | allListed {c : Nat} {now : Ms} {before : Nat} {ids : List Ulid}
      (phase : w.cycles c = .listing now before shards.count ids) :
      Took shards w (.allListed c) (w.setCycle c (.scanning now before .empty none ids))
  | look {c : Nat} {now : Ms} {before : Nat} {scan : Scan} {rid : Ulid} {rest : List Ulid}
      (phase : w.cycles c = .scanning now before scan none (rid :: rest)) :
      Took shards w (.look c) (w.setCycle c (.scanning now before scan (w.tenant.memory.lookUp rid) rest))
  | scan {c : Nat} {now : Ms} {before : Nat} {scan : Scan} {h : Handle} {rest : List Ulid} {rs : ResourceState}
      (phase : w.cycles c = .scanning now before scan (some h) rest) (free : w.tenant.lockedBy h = none)
      (present : w.tenant.memory.read h = some rs) :
      Took shards w (.scan c) { w.setCycle c (.scanning now before (scan.resource now rs) none rest) with
        taken := expiredOn now h rs ++ w.taken }
  | skip {c : Nat} {now : Ms} {before : Nat} {scan : Scan} {h : Handle} {rest : List Ulid}
      (phase : w.cycles c = .scanning now before scan (some h) rest) :
      Took shards w (.skip c) (w.setCycle c (.scanning now before { scan with hadLocked := true } none rest))
  | unchanged {c : Nat} {now : Ms} {before : Nat} {scan : Scan} (phase : w.cycles c = .scanning now before scan none [])
      (same : w.holdGeneration % 2 ^ 64 = before % 2 ^ 64) :
      Took shards w (.recheck c) (w.setCycle c (.publishing now scan.bound scan.expired))
  | raced {c : Nat} {now : Ms} {before : Nat} {scan : Scan} (phase : w.cycles c = .scanning now before scan none []) :
      Took shards w (.recheck c) (w.setCycle c (.collected now scan.expired))
  | publish {c : Nat} {now bound : Ms} {expired : List (Ulid × Ulid)}
      (phase : w.cycles c = .publishing now bound expired) :
      Took shards w (.publish c) { w.setCycle c (.collected now expired) with earliestHoldExpiry := bound }
  | expire {c : Nat} {i : TaskId} {now : Ms} {id rid : Ulid} {rest : List (Ulid × Ulid)} {tenant : Tenant}
      (phase : w.cycles c = .collected now ((id, rid) :: rest))
      (took : w.tenant.Took shards (.start i (.removeHold id)) tenant) :
      Took shards w (.expire c i) { w.setCycle c (.expiring now id i rest) with tenant }
  | expired {c : Nat} {now : Ms} {id : Ulid} {i : TaskId} {rest : List (Ulid × Ulid)} {ok : Bool}
      (phase : w.cycles c = .expiring now id i rest) (answered : w.tenant.tasks i = .answered ok) :
      Took shards w (.expired c) (w.setCycle c (.collected now rest))
  | pass {c : Nat} {now : Ms} {id rid : Ulid} {rest : List (Ulid × Ulid)}
      (phase : w.cycles c = .collected now ((id, rid) :: rest)) :
      Took shards w (.pass c) (w.setCycle c (.collected now rest))
  | finish {c : Nat} {now : Ms} {expired : List (Ulid × Ulid)} (phase : w.cycles c = .collected now expired) :
      Took shards w (.finish c) (w.setCycle c .idle)

variable {shards : Shards} {w w' : Reaping} {a : Action}

@[simp] theorem lowerTo_tenant (i : TaskId) (earliest : Ms) : (w.lowerTo i earliest).tenant = w.tenant := rfl
@[simp] theorem lowerTo_cycles (i : TaskId) (earliest : Ms) : (w.lowerTo i earliest).cycles = w.cycles := rfl

@[simp] theorem setCycle_cycles (c d : Nat) (cycle : Cycle) :
    (w.setCycle c cycle).cycles d = if d = c then cycle else w.cycles d := Function.update_apply ..

theorem took_advance {a : Tenant.Action} (taken : w.advance shards a = some w') : w.Took shards (.tenant a) w' := by
  unfold advance at taken
  split at taken
  · next i =>
      split at taken
      · next watched =>
          obtain ⟨tenant, stepped, rfl⟩ := Option.map_eq_some_iff.mp taken
          exact .tenant (Tenant.took stepped) fun j same => by cases same; exact watched
      · cases taken
  · next other =>
      obtain ⟨tenant, stepped, rfl⟩ := Option.map_eq_some_iff.mp taken
      exact .tenant (Tenant.took stepped) fun i same => absurd same (other i)

/-- Every step is one of these. -/
theorem took (taken : w.step shards a = some w') : w.Took shards a w' := by
  cases a with
  | tenant a => exact took_advance taken
  | lower i =>
      simp only [step, Reaping.lower] at taken
      split at taken
      · next fresh earliest => cases taken; exact .lower fresh earliest
      · cases taken
  | bump i =>
      simp only [step, Reaping.bump] at taken
      split at taken
      · next lowered => cases taken; exact .bump lowered
      · cases taken
  | lowerStopped expiresAt =>
      simp only [step, Reaping.lowerStopped] at taken
      split at taken
      · cases taken; exact .lowerStopped expiresAt
      · cases taken
  | bumpStopped =>
      simp only [step, Reaping.bumpStopped] at taken
      split at taken
      · cases taken; exact .bumpStopped
      · cases taken
  | collect c now =>
      simp only [step, Reaping.collect] at taken
      split at taken
      · next phase =>
          split at taken
          · next early => cases taken; exact .early phase early
          · next due => cases taken; exact .due phase (not_lt.mp due)
      · cases taken
  | loadGeneration c =>
      simp only [step, Reaping.loadGeneration] at taken
      split at taken
      · next phase => cases taken; exact .loadGeneration phase
      · cases taken
  | list c ids =>
      simp only [step, Reaping.list] at taken
      split at taken
      · next phase =>
          split at taken
          · next shard => cases taken; exact .list phase shard.1 shard.2
          · cases taken
      · cases taken
  | allListed c =>
      simp only [step, Reaping.allListed] at taken
      split at taken
      · next phase =>
          split at taken
          · next all => cases taken; exact .allListed (all ▸ phase)
          · cases taken
      · cases taken
  | look c =>
      simp only [step, Reaping.look] at taken
      split at taken
      · next phase => cases taken; exact .look phase
      · cases taken
  | scan c =>
      simp only [step, Reaping.scan] at taken
      split at taken
      · next phase =>
          split at taken
          · next free present => cases taken; exact .scan phase free present
          · cases taken
      · cases taken
  | skip c =>
      simp only [step, Reaping.skip] at taken
      split at taken
      · next phase => cases taken; exact .skip phase
      · cases taken
  | recheck c =>
      simp only [step, Reaping.recheck] at taken
      split at taken
      · next phase =>
          split at taken
          · next same => cases taken; exact .unchanged phase same
          · cases taken; exact .raced phase
      · cases taken
  | publish c =>
      simp only [step, Reaping.publish] at taken
      split at taken
      · next phase => cases taken; exact .publish phase
      · cases taken
  | expire c i =>
      simp only [step, Reaping.expire] at taken
      split at taken
      · next phase =>
          obtain ⟨tenant, started, rfl⟩ := Option.map_eq_some_iff.mp taken
          have stepped : w.tenant.step shards (.start i (.removeHold _)) = some _ := started
          exact .expire phase (Tenant.took stepped)
      · cases taken
  | expired c =>
      simp only [step, Reaping.expired] at taken
      split at taken
      · next phase =>
          split at taken
          · next answered => cases taken; exact .expired phase answered
          · cases taken
      · cases taken
  | pass c =>
      simp only [step, Reaping.pass] at taken
      split at taken
      · next phase =>
          split at taken
          · cases taken; exact .pass phase
          · cases taken
      · cases taken
  | finish c =>
      simp only [step, Reaping.finish] at taken
      split at taken
      · next phase => cases taken; exact .finish phase
      · cases taken

/-- The request that an action is a step of. -/
def Action.task : Action → Option TaskId
  | .tenant a => a.task
  | .lower i | .bump i | .expire _ i => some i
  | _ => none

/-- The cycle that an action is a step of. -/
def Action.cycle : Action → Option Nat
  | .collect c _ | .loadGeneration c | .list c _ | .allListed c | .look c | .scan c | .skip c | .recheck c | .publish c
  | .expire c _ | .expired c | .pass c | .finish c => some c
  | _ => none

theorem Took.task_other (took : w.Took shards a w') {j : TaskId} (other : a.task ≠ some j) :
    w'.tenant.tasks j = w.tenant.tasks j ∧ w'.watches j = w.watches j := by
  cases took with
  | tenant took => exact ⟨took.tasks_other other, rfl⟩
  | lower | bump => exact ⟨rfl, Function.update_of_ne (fun same => other (congrArg some same.symm)) ..⟩
  | expire _ took => exact ⟨took.tasks_other other, rfl⟩
  | _ => exact ⟨rfl, rfl⟩

theorem Took.cycle_other (took : w.Took shards a w') {d : Nat} (other : a.cycle ≠ some d) : w'.cycles d = w.cycles d := by
  cases took with
  | tenant | lower | bump | lowerStopped | bumpStopped => rfl
  | _ => exact Function.update_of_ne (fun same => other (congrArg some same.symm)) ..

end Reaping

end Deltat
