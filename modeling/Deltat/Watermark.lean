import Deltat.ReaperSteps

/-! # The watermark overlooks no hold

A placement lowers the bound before its hold stands, and a cycle raises it only to what it has
seen. What a cycle has not seen was announced while it looked, so the generation has moved.
-/

namespace Deltat

open Lib Machine Limits

/-- An expiry that has passed its check. -/
theorem Request.admitRecords_expiry {r : Request} (checked : r.Checked) {e : Engine}
    {guard : Ulid → Option ResourceState} {rules : Ulid → InheritedRules} {targets : List Ulid} {records : List Event}
    (admitted : r.admitRecords e guard rules targets = .ok records) {id rid : Ulid} {span : Span} {expiresAt : Ms}
    (written : .holdPlaced id rid span expiresAt ∈ records) : i64Min ≤ expiresAt := by
  cases r with
  | placeHold =>
      obtain ⟨_, _, same⟩ := Outcome.bind_ok.mp admitted
      cases same
      cases List.mem_singleton.mp written
      exact checked.2.1
  | batchPlaceHolds holds =>
      obtain ⟨_, _, same⟩ := Outcome.bind_ok.mp admitted
      cases same
      obtain ⟨h, inside, same⟩ := List.mem_map.mp written
      cases same
      exact (checked.2 h inside).2.1
  | addRule | confirmBooking | updateResource | commitHolds =>
      obtain ⟨_, _, admitted⟩ := Outcome.bind_ok.mp admitted
      first | cases admitted | (obtain ⟨_, _, same⟩ := Outcome.bind_ok.mp admitted; cases same)
      simp at written
  | batchConfirmBookings bookings =>
      obtain ⟨_, _, same⟩ := Outcome.bind_ok.mp admitted
      cases same
      simp at written
  | updateRule | removeRule | removeHold | cancelBooking =>
      obtain ⟨_, _, _, same, _⟩ := admitEntity_ok admitted
      cases same
      simp at written

/-- Whether the expiries of its holds are the 64-bit numbers that a log holds. -/
def Engine.ExpiriesFit (e : Engine) : Prop := ∀ r rs, e.store.getResource r = some rs → ∀ i ∈ rs.intervals,
  ∀ expiresAt, i.kind = .hold expiresAt → i64Min ≤ expiresAt
namespace Tenant

variable {shards : Shards} {t t' : Tenant} {a : Action}

/-- Whether every expiry in memory and on the way there fits its 64 bits from below. -/
structure Ranged (t : Tenant) : Prop where
  standing : ∀ p, t.memory.Holds p → i64Min ≤ p.expiresAt
  decided : ∀ i, ∀ p ∈ (t.tasks i).placements, i64Min ≤ p.expiresAt

theorem on_ranged {e : Engine} (fits : e.ExpiriesFit) : (on e).Ranged where
  standing p := by
    rintro ⟨rs, found, i, inside, _, kind⟩
    unfold Memory.read at found
    split at found
    · exact fits _ rs found i inside _ kind
    · cases found
  decided _ _ inside := (List.not_mem_nil inside).elim

theorem Ranged.took (ranged : t.Ranged) (routed : t.Routed) (took : t.Took shards a t') : t'.Ranged where
  standing p stands := by
    rcases took.holds routed stands with before | ⟨i, _, _, _, _, inside⟩
    · exact ranged.standing p before
    · exact ranged.decided i p inside
  decided j p inside := by
    rcases took.placements inside with before | undecided
    · exact ranged.decided j p before
    · by_cases own : a.task = some j
      · cases took with
        | @check _ _ _ request _ _ _ _ _ _ admitted =>
            cases own
            simp only [setTask_self] at inside
            obtain ⟨_, span, written⟩ := Task.mem_placements_sending inside
            exact Request.admitRecords_expiry request.2 admitted written
        | send phase | apply phase =>
            cases own
            rw [phase] at undecided
            exact absurd trivial undecided
        | start | lookUp | lock | allLocked | claim | release | fail | answer | refuse =>
            cases own
            simp [Task.placements] at inside
        | _ => cases own
      · rw [took.tasks_other own] at inside
        exact ranged.decided j p inside

end Tenant

namespace Scan

variable {now : Ms} {rs : ResourceState} {scan : Scan}

theorem see_hadLocked (interval : Interval) : (scan.see now rs interval).hadLocked = scan.hadLocked := by
  unfold see
  split
  · split <;> rfl
  · rfl

theorem see_nextEarliest (interval : Interval) : (scan.see now rs interval).nextEarliest ≤ scan.nextEarliest := by
  unfold see
  split
  · split
    · rfl
    · exact min_le_left ..
  · rfl

theorem see_live {interval : Interval} {expiresAt : Ms} (kind : interval.kind = .hold expiresAt)
    (live : now < expiresAt) : (scan.see now rs interval).nextEarliest ≤ expiresAt := by
  simp only [see, kind, not_le.mpr live, if_false]
  exact min_le_right ..

theorem sees_hadLocked (intervals : List Interval) :
    (intervals.foldl (see now rs) scan).hadLocked = scan.hadLocked := by
  induction intervals generalizing scan with
  | nil => rfl
  | cons i rest ih => exact ih.trans (see_hadLocked i)

theorem sees_nextEarliest (intervals : List Interval) :
    (intervals.foldl (see now rs) scan).nextEarliest ≤ scan.nextEarliest := by
  induction intervals generalizing scan with
  | nil => rfl
  | cons i rest ih => exact ih.trans (see_nextEarliest i)

theorem sees_live {intervals : List Interval} {i : Interval} (inside : i ∈ intervals) {expiresAt : Ms}
    (kind : i.kind = .hold expiresAt) (live : now < expiresAt) :
    (intervals.foldl (see now rs) scan).nextEarliest ≤ expiresAt := by
  induction intervals generalizing scan with
  | nil => cases inside
  | cons j rest ih =>
      rcases List.mem_cons.mp inside with rfl | later
      · exact (sees_nextEarliest rest).trans (see_live kind live)
      · exact ih later

/-- A live hold holds the next expiry down. -/
theorem resource_live (scan : Scan) {i : Interval} (inside : i ∈ rs.intervals) {expiresAt : Ms}
    (kind : i.kind = .hold expiresAt) (live : now < expiresAt) : (scan.resource now rs).nextEarliest ≤ expiresAt :=
  sees_live inside kind live

/-- A scan only tightens its bound. -/
theorem resource_bound : (scan.resource now rs).bound ≤ scan.bound := by
  unfold bound resource
  rw [sees_hadLocked]
  split
  · rfl
  · exact sees_nextEarliest _

theorem bound_le {expiresAt : Ms} (ranged : i64Min ≤ expiresAt) (next : scan.nextEarliest ≤ expiresAt) :
    scan.bound ≤ expiresAt := by
  unfold bound
  split
  · exact ranged
  · exact next

end Scan

/-- The generation that a cycle has seen. -/
def Cycle.before : Cycle → Option Nat
  | .listing _ before _ _ | .scanning _ before _ _ _ => some before
  | _ => none

namespace Reaping

variable {shards : Shards} {w w' : Reaping} {a : Action}

/-- A hold about to be placed whose placement the generation does not count yet. -/
def Lowering (w : Reaping) (p : Placement) : Prop :=
  ∃ i, w.watches i = .lowered ∧ p ∈ (w.tenant.tasks i).placements

/-- Why a cycle will not raise the bound over a hold. -/
def Accounted (shards : Shards) (w : Reaping) (p : Placement) : Cycle → Prop
  | .listing _ before visited ids => before < w.holdGeneration ∨ w.Lowering p ∨
      visited ≤ (shards.of p.resource.1).val ∨ p.resource.1 ∈ ids
  | .scanning _ before scan found rest => before < w.holdGeneration ∨ w.Lowering p ∨
      found = some p.resource ∨ p.resource.1 ∈ rest ∨ scan.bound ≤ p.expiresAt ∨ p ∈ w.taken
  | .publishing _ bound _ => bound ≤ p.expiresAt ∨ p ∈ w.taken
  | _ => True
/-- The bound covers every hold that no cycle has collected. -/
structure Watching (shards : Shards) (w : Reaping) : Prop where
  orderly : w.Orderly
  ranged : w.tenant.Ranged
  generation : ∀ c before, (w.cycles c).before = some before → before ≤ w.holdGeneration
  covered : ∀ p, w.Announced p → w.earliestHoldExpiry ≤ p.expiresAt ∨ p ∈ w.taken
  accounted : ∀ c p, w.Announced p → w.Accounted shards p (w.cycles c)

theorem on_watching {e : Engine} (ranged : (Tenant.on e).Ranged) : (on e).Watching shards where
  orderly := on_orderly e
  ranged := ranged
  generation _ _ seen := nomatch seen
  covered p announced := .inl (by
    obtain ⟨_, stands | ⟨_, watched, _⟩⟩ := announced
    · exact ranged.standing p stands
    · exact absurd rfl watched)
  accounted _ _ _ := trivial

theorem Watching.expiry (inv : w.Watching shards) {p : Placement} (announced : w.Announced p) :
    i64Min ≤ p.expiresAt := by
  obtain ⟨_, stands | ⟨i, _, inside⟩⟩ := announced
  · exact inv.ranged.standing p stands
  · exact inv.ranged.decided i p inside
theorem Watching.advance (inv : w.Watching shards) {a : Tenant.Action} {tenant : Tenant}
    (took : w.tenant.Took shards a tenant)
    (watched : ∀ i, a = .send i → (w.tenant.tasks i).expiries = [] ∨ w.watches i = .bumped) :
    { w with tenant }.Watching shards where
  orderly := inv.orderly.advance took watched
  ranged := inv.ranged.took inv.orderly.handled.routed took
  generation := inv.generation
  covered p announced := inv.covered p (inv.orderly.announced took announced)
  accounted c p announced := by
    have before := inv.accounted c p (inv.orderly.announced took announced)
    have lowering : w.Lowering p → { w with tenant }.Lowering p := by
      rintro ⟨i, lowered, inside⟩
      exact ⟨i, lowered, by rw [inv.orderly.stays took watched lowered]; exact inside⟩
    cases phase : w.cycles c <;> simp only [phase, Accounted] at before ⊢
    case listing => exact before.imp_right (Or.imp_left lowering)
    case scanning => exact before.imp_right (Or.imp_left lowering)
    case publishing => exact before

/-- The windows between a placement's two accesses and between a cycle's two are kept apart: none
    publishes over a hold that it could not see. -/
def Undisturbed (w : Reaping) : Action → Prop
  | .lower i => ∀ c now bound expired, w.cycles c = .publishing now bound expired →
      ∀ expiresAt ∈ (w.tenant.tasks i).expiries, bound ≤ expiresAt
  | .recheck c => ∀ now before scan, w.cycles c = .scanning now before scan none [] →
      w.holdGeneration % 2 ^ 64 = before % 2 ^ 64 → w.holdGeneration = before ∧
        ∀ i, w.watches i = .lowered → ∀ expiresAt ∈ (w.tenant.tasks i).expiries, scan.bound ≤ expiresAt
  | _ => True

theorem Watching.lower (inv : w.Watching shards) {i : TaskId} {earliest : Ms}
    (minimum : (w.tenant.tasks i).expiries.min? = some earliest) (apart : w.Undisturbed (.lower i)) :
    (w.lowerTo i earliest).Watching shards := by
  obtain ⟨isExpiry, least⟩ := List.min?_eq_some_iff.mp minimum
  obtain ⟨request, held, records, phase⟩ := Task.sending_of_expiries (List.ne_nil_of_mem isExpiry)
  have own : ∀ p ∈ (w.tenant.tasks i).placements, p.expiresAt ∈ (w.tenant.tasks i).expiries :=
    fun p inside => Task.placements_expiries phase inside
  have others : ∀ j, j ≠ i → Function.update w.watches i .lowered j = w.watches j :=
    fun j other => Function.update_of_ne other ..
  have before : ∀ p, p ∉ (w.tenant.tasks i).placements → (w.lowerTo i earliest).Announced p → w.Announced p :=
    fun p others announced => ⟨announced.1, (lowerTo_near announced.2).resolve_right others⟩
  have kept : ∀ p, p ∉ (w.tenant.tasks i).placements → p ∈ w.taken → p ∈ (w.lowerTo i earliest).taken :=
    fun p others inside => List.mem_filter.mpr ⟨inside, by simpa using others⟩
  constructor
  case orderly => exact inv.orderly.lower minimum
  case ranged => exact inv.ranged
  case generation => exact inv.generation
  case covered =>
    intro p announced
    by_cases mine : p ∈ (w.tenant.tasks i).placements
    · exact .inl ((min_le_right ..).trans (least _ (own p mine)))
    · exact (inv.covered p (before p mine announced)).imp (min_le_left ..).trans (kept p mine)
  case accounted =>
    intro c p announced
    by_cases mine : p ∈ (w.tenant.tasks i).placements
    · rw [lowerTo_cycles]
      cases cycle : w.cycles c <;> simp only [Accounted]
      case listing => exact .inr (.inl ⟨i, Function.update_self .., mine⟩)
      case scanning => exact .inr (.inl ⟨i, Function.update_self .., mine⟩)
      case publishing => exact .inl (apart c _ _ _ cycle _ (own p mine))
    · have lowering : w.Lowering p → (w.lowerTo i earliest).Lowering p := by
        rintro ⟨j, lowered, inside⟩
        exact ⟨j, (others j fun same => mine (same ▸ inside)).trans lowered, inside⟩
      have accounted := inv.accounted c p (before p mine announced)
      rw [lowerTo_cycles]
      cases cycle : w.cycles c <;> simp only [cycle, Accounted] at accounted ⊢
      case listing => exact accounted.imp_right (Or.imp_left lowering)
      case scanning =>
        exact accounted.imp_right (Or.imp lowering (Or.imp_right (Or.imp_right (Or.imp_right (kept p mine)))))
      case publishing => exact accounted.imp_right (kept p mine)

theorem Watching.bump (inv : w.Watching shards) {i : TaskId} (lowered : w.watches i = .lowered) :
    Watching shards { w with holdGeneration := w.holdGeneration + 1, watches := Function.update w.watches i .bumped } := by
  have before : ∀ p, Announced { w with
      holdGeneration := w.holdGeneration + 1, watches := Function.update w.watches i .bumped } p → w.Announced p :=
    fun p announced => ⟨announced.1, bump_near lowered announced.2⟩
  constructor
  case orderly => exact inv.orderly.bump lowered
  case ranged => exact inv.ranged
  case generation => exact fun c before seen => (inv.generation c before seen).trans (Nat.le_succ _)
  case covered => exact fun p announced => inv.covered p (before p announced)
  case accounted =>
    intro c p announced
    have accounted := inv.accounted c p (before p announced)
    have seen := inv.generation c
    cases cycle : w.cycles c <;> simp only [cycle, Accounted] at accounted ⊢
    case listing => exact .inl (Nat.lt_succ_of_le (seen _ (by rw [cycle]; rfl)))
    case scanning => exact .inl (Nat.lt_succ_of_le (seen _ (by rw [cycle]; rfl)))
    case publishing => exact accounted

/-- A stopped tenant refuses a placement that has moved the bound and the generation. -/
theorem Watching.stopped (inv : w.Watching shards) {earliest : Ms} {generation : Nat}
    (lower : earliest ≤ w.earliestHoldExpiry) (later : w.holdGeneration ≤ generation) :
    Watching shards { w with earliestHoldExpiry := earliest, holdGeneration := generation } := by
  refine ⟨inv.orderly.keep rfl rfl, inv.ranged,
    fun c before seen => (inv.generation c before seen).trans later,
    fun p announced => (inv.covered p announced).imp_left lower.trans, fun c p announced => ?_⟩
  have accounted := inv.accounted c p announced
  cases cycle : w.cycles c <;> simp only [cycle, Accounted] at accounted ⊢
  case listing => exact accounted.imp_left later.trans_lt'
  case scanning => exact accounted.imp_left later.trans_lt'
  case publishing => exact accounted

/-- A cycle moves on. -/
theorem Watching.setCycle (inv : w.Watching shards) {c : Nat} {cycle : Cycle}
    (seen : ∀ before, cycle.before = some before → before ≤ w.holdGeneration)
    (accounted : ∀ p, w.Announced p → w.Accounted shards p cycle) : (w.setCycle c cycle).Watching shards := by
  refine ⟨inv.orderly.keep rfl rfl, inv.ranged, fun d before same => ?_, inv.covered,
    fun d p announced => ?_⟩
  · rw [setCycle_cycles] at same
    split at same
    · exact seen before same
    · exact inv.generation d before same
  · rw [setCycle_cycles]
    split
    · exact accounted p announced
    · exact inv.accounted d p announced

/-- More is collected. -/
theorem Watching.take (inv : w.Watching shards) (more : List Placement) :
    Watching shards { w with taken := more ++ w.taken } := by
  refine ⟨inv.orderly.keep rfl rfl, inv.ranged, inv.generation,
    fun p announced => (inv.covered p announced).imp_right (List.mem_append_right _), fun c p announced => ?_⟩
  have accounted := inv.accounted c p announced
  cases cycle : w.cycles c <;> simp only [cycle, Accounted] at accounted ⊢
  case listing => exact accounted
  case scanning =>
    exact accounted.imp_right (Or.imp_right (Or.imp_right (Or.imp_right (Or.imp_right (List.mem_append_right _)))))
  case publishing => exact accounted.imp_right (List.mem_append_right _)
theorem Watching.scan (inv : w.Watching shards) {c : Nat} {now : Ms} {before : Nat} {scan : Scan} {h : Handle}
    {rest : List Ulid} {rs : ResourceState} (phase : w.cycles c = .scanning now before scan (some h) rest)
    (free : w.tenant.lockedBy h = none) (present : w.tenant.memory.read h = some rs) :
    Watching shards { w.setCycle c (.scanning now before (scan.resource now rs) none rest) with
      taken := expiredOn now h rs ++ w.taken } := by
  refine (inv.take (expiredOn now h rs)).setCycle (fun n same => inv.generation c n (by rw [phase]; exact same))
    fun p announced => ?_
  have accounted := inv.accounted c p announced
  simp only [phase, Accounted, Option.some.injEq] at accounted
  rcases accounted with later | lowering | here | coming | covered | taken
  · exact .inl later
  · exact .inr (.inl lowering)
  · subst here
    obtain ⟨_, ⟨rs', found, i, inside, same, kind⟩ | ⟨i, _, inside⟩⟩ := announced
    · cases present.symm.trans found
      by_cases due : p.expiresAt ≤ now
      · have collected := mem_expiredOn.mpr ⟨rfl, due, i, inside, same, kind⟩
        exact .inr (.inr (.inr (.inr (.inr (List.mem_append_left _ collected)))))
      · have ranged := inv.ranged.standing p ⟨rs, found, i, inside, same, kind⟩
        have bound := Scan.bound_le ranged (Scan.resource_live scan inside kind (not_le.mp due))
        exact .inr (.inr (.inr (.inr (.inl bound))))
    · -- Whoever is about to place a hold has the lock.
      exact absurd (inv.orderly.handled.placed inside) (inv.orderly.handled.locks.free free i)
  · exact .inr (.inr (.inr (.inl coming)))
  · exact .inr (.inr (.inr (.inr (.inl (Scan.resource_bound.trans covered)))))
  · exact .inr (.inr (.inr (.inr (.inr (List.mem_append_right _ taken)))))

theorem Watching.look (inv : w.Watching shards) {c : Nat} {now : Ms} {before : Nat} {scan : Scan} {rid : Ulid}
    {rest : List Ulid} (phase : w.cycles c = .scanning now before scan none (rid :: rest)) :
    (w.setCycle c (.scanning now before scan (w.tenant.memory.lookUp rid) rest)).Watching shards := by
  refine inv.setCycle (fun n same => inv.generation c n (by rw [phase]; exact same)) fun p announced => ?_
  have accounted := inv.accounted c p announced
  simp only [phase, Accounted, reduceCtorEq, false_or] at accounted ⊢
  refine accounted.imp_right (Or.imp_right ?_)
  rintro (coming | covered)
  · rcases List.mem_cons.mp coming with here | later
    · left
      rw [← here]
      exact Tenant.lookUp_eq.mpr ⟨announced.1, inv.orderly.present announced⟩
    · exact .inr (.inl later)
  · exact .inr (.inr covered)

theorem Watching.list (inv : w.Watching shards) {c : Nat} {now : Ms} {before visited : Nat} {listed ids : List Ulid}
    (phase : w.cycles c = .listing now before visited listed)
    (shard : ids.Perm (w.tenant.memory.store.resourceIds.filter fun r => (shards.of r).val = visited)) :
    (w.setCycle c (.listing now before (visited + 1) (listed ++ ids))).Watching shards := by
  refine inv.setCycle (fun n same => inv.generation c n (by rw [phase]; exact same)) fun p announced => ?_
  have accounted := inv.accounted c p announced
  simp only [phase, Accounted] at accounted ⊢
  refine accounted.imp_right (Or.imp_right ?_)
  rintro (ahead | there)
  · by_cases here : (shards.of p.resource.1).val = visited
    · have found := Engine.mem_resourceIds.mpr (inv.orderly.present announced)
      exact .inr (List.mem_append_right _ (shard.mem_iff.mpr (List.mem_filter.mpr ⟨found, by simpa using here⟩)))
    · exact .inl (lt_of_le_of_ne ahead (Ne.symm here))
  · exact .inr (List.mem_append_left _ there)

/-- A cycle that has seen no placement race it publishes over no hold. -/
theorem Watching.unchanged (inv : w.Watching shards) {c : Nat} {now : Ms} {before : Nat} {scan : Scan}
    (phase : w.cycles c = .scanning now before scan none []) (same : w.holdGeneration % 2 ^ 64 = before % 2 ^ 64)
    (apart : w.Undisturbed (.recheck c)) : (w.setCycle c (.publishing now scan.bound scan.expired)).Watching shards := by
  obtain ⟨unmoved, apart⟩ := apart now before scan phase same
  refine inv.setCycle (fun n same => nomatch same) fun p announced => ?_
  have accounted := inv.accounted c p announced
  simp only [phase, Accounted, unmoved, Nat.lt_irrefl, reduceCtorEq, List.not_mem_nil, false_or] at accounted ⊢
  rcases accounted with ⟨i, lowered, inside⟩ | seen
  · obtain ⟨_, _, _, sending⟩ := Task.sending_of_expiries (inv.orderly.lowered i lowered)
    exact .inl (apart i lowered _ (Task.placements_expiries sending inside))
  · exact seen

theorem Watching.publish (inv : w.Watching shards) {c : Nat} {now bound : Ms} {expired : List (Ulid × Ulid)}
    (phase : w.cycles c = .publishing now bound expired) :
    Watching shards { w.setCycle c (.collected now expired) with earliestHoldExpiry := bound } := by
  have moved : (w.setCycle c (.collected now expired)).Watching shards :=
    inv.setCycle (fun n same => nomatch same) fun _ _ => trivial
  refine ⟨moved.orderly.keep rfl rfl, moved.ranged, moved.generation,
    fun p announced => ?_, moved.accounted⟩
  have accounted := inv.accounted c p announced
  rw [phase] at accounted
  exact accounted

/-- Every step keeps the bound below the holds that no cycle has collected. -/
theorem Watching.took (inv : w.Watching shards) (took : w.Took shards a w') (apart : w.Undisturbed a) :
    w'.Watching shards := by
  cases took with
  | tenant took watched => exact inv.advance took watched
  | lower _ minimum => exact inv.lower minimum apart
  | bump lowered => exact inv.bump lowered
  | lowerStopped => exact inv.stopped (min_le_left ..) le_rfl
  | bumpStopped => exact inv.stopped le_rfl (Nat.le_succ _)
  | loadGeneration phase =>
      exact inv.setCycle (fun n same => (Option.some.inj same).ge) fun p _ => .inr (.inr (.inl (Nat.zero_le _)))
  | list phase _ shard => exact inv.list phase shard
  | @allListed c _ _ _ phase =>
      refine inv.setCycle (fun n same => inv.generation c n (by rw [phase]; exact same)) fun p announced => ?_
      have accounted := inv.accounted c p announced
      simp only [phase, Accounted] at accounted ⊢
      refine accounted.imp_right (Or.imp_right fun listed => .inr (.inl (listed.resolve_left ?_)))
      exact Nat.not_le.mpr (shards.of p.resource.1).isLt
  | look phase => exact inv.look phase
  | scan phase free present => exact inv.scan phase free present
  | @skip c _ _ scan _ _ phase =>
      refine inv.setCycle (fun n same => inv.generation c n (by rw [phase]; exact same)) fun p announced => ?_
      exact .inr (.inr (.inr (.inr (.inl (inv.expiry announced)))))
  | unchanged phase same => exact inv.unchanged phase same apart
  | publish phase => exact inv.publish phase
  | expire _ took =>
      exact (inv.advance took fun _ same => nomatch same).setCycle (fun n same => nomatch same) fun _ _ => trivial
  | early | due | raced | expired | pass | finish =>
      exact inv.setCycle (fun n same => nomatch same) fun _ _ => trivial

/-- In every run whose two windows are kept apart, a hold of the table is covered by the bound, and
    a cycle at or past its expiry goes on to look for it, unless one has collected it since it
    was placed. -/
theorem hold_watched {e : Engine} (fits : e.ExpiriesFit) (reached : Reaches (step shards) Undisturbed (on e) w)
    {r : Ulid} {rs : ResourceState} {i : Interval} {expiresAt : Ms}
    (found : w.tenant.memory.store.getResource r = some rs) (inside : i ∈ rs.intervals)
    (kind : i.kind = .hold expiresAt) : ⟨w.tenant.memory.current r, i.id, expiresAt⟩ ∈ w.taken ∨
      w.earliestHoldExpiry ≤ expiresAt ∧ ∀ c now, w.cycles c = .idle → expiresAt ≤ now →
        w.step shards (.collect c now) = some (w.setCycle c (.due now)) := by
  have start : (on e).Watching shards := on_watching (Tenant.on_ranged fits)
  have inv := reached.invariant start
    fun _ _ _ inv apart taken => inv.took (Reaping.took taken) apart
  have announced : w.Announced ⟨w.tenant.memory.current r, i.id, expiresAt⟩ :=
    ⟨rfl, .inl ⟨rs, (if_pos rfl).trans found, i, inside, rfl, kind⟩⟩
  rcases inv.covered _ announced with covered | taken
  · refine .inr ⟨covered, fun c now idle due => ?_⟩
    have reachable : ¬ now < w.earliestHoldExpiry := not_lt.mpr (covered.trans due)
    simp only [step, collect, idle, if_neg reachable]
  · exact .inl taken
/-! ## One hold -/

/-- A hold is placed, and then looked for. -/
def collecting (expiresAt now : Ms) : List Action :=
  admitting 0 expiresAt ++ [.lower 0] ++ placed 0 ++ looking now ++ [.scan 0, .recheck 0, .publish 0, .finish 0]

/-- A hold that has expired is collected, and stands above the bound until it is removed. -/
theorem collected_above_bound : ∃ w, Reaches (step Tenant.oneShard) (fun _ _ => True) (on bareRoom) w ∧
    w.tenant.tasks 0 = .answered true ∧ (∀ i, i ≠ 0 → w.tenant.tasks i = .idle) ∧ (∀ c, w.cycles c = .idle) ∧
    ∃ rs, w.tenant.memory.store.getResource 1 = some rs ∧ ⟨9, ⟨10, 20⟩, .hold 10⟩ ∈ rs.intervals ∧
      ¬ w.earliestHoldExpiry ≤ 10 := by
  have possible : (Machine.run (step Tenant.oneShard) (collecting 10 20) (on bareRoom)).map (fun w =>
      (w.tenant.tasks 0, w.cycles 0, (w.tenant.memory.store.getResource 1).map (·.intervals), w.earliestHoldExpiry)) =
    some (.answered true, .idle, some [⟨9, ⟨10, 20⟩, .hold 10⟩], i64Max) := by rfl
  obtain ⟨w, ran, facts⟩ := Option.map_eq_some_iff.mp possible
  simp only [Prod.mk.injEq] at facts
  obtain ⟨answered, idle, room, bound⟩ := facts
  obtain ⟨rs, found, intervals⟩ := Option.map_eq_some_iff.mp room
  obtain ⟨tasks, cycles⟩ := run_others (by rfl) ran
  refine ⟨w, Machine.reaches_of_run (fun _ _ _ => trivial) ran, answered, fun i other => (tasks i other).1, fun c => ?_,
    rs, found, by rw [intervals]; exact List.mem_cons_self, by rw [bound]; decide⟩
  by_cases first : c = 0
  · rw [first]
    exact idle
  · exact cycles c first

theorem bareRoom_fits : bareRoom.ExpiriesFit := by
  intro r rs found
  have listed : r ∈ bareRoom.store.resourceIds := Engine.mem_resourceIds.mpr (by rw [found]; rfl)
  have one : bareRoom.store.resourceIds = [1] := by decide +kernel
  rw [one, List.mem_singleton] at listed
  subst listed
  have empty : (bareRoom.store.getResource 1).map (·.intervals) = some [] := by decide +kernel
  have nothing : rs.intervals = [] := by simpa [found] using empty
  rw [nothing]
  exact fun _ inside => (List.not_mem_nil inside).elim

/-- A live hold is found and holds the bound down. -/
theorem live_below_bound : ∃ w, Reaches (step Tenant.oneShard) Undisturbed (on bareRoom) w ∧
    w.taken = [] ∧ w.earliestHoldExpiry = 100 ∧
    (⟨w.tenant.memory.current 1, 9, 100⟩ ∈ w.taken ∨ w.earliestHoldExpiry ≤ 100 ∧ ∀ c now, w.cycles c = .idle →
      100 ≤ now → w.step Tenant.oneShard (.collect c now) = some (w.setCycle c (.due now))) := by
  have possible : ((Machine.run (step Tenant.oneShard) (admitting 0 100) (on bareRoom)).bind fun w₁ =>
      (w₁.step Tenant.oneShard (.lower 0)).bind fun w₂ =>
      (Machine.run (step Tenant.oneShard) (placed 0 ++ looking 20 ++ [.scan 0]) w₂).bind fun w₃ =>
      (w₃.step Tenant.oneShard (.recheck 0)).bind fun w₄ =>
      (Machine.run (step Tenant.oneShard) [.publish 0, .finish 0] w₄).map fun w =>
        (w₁.cycles 0, w₃.watches 0, w₃.cycles 0, w₃.holdGeneration, w.taken, w.earliestHoldExpiry,
          (w.tenant.memory.store.getResource 1).map (·.intervals))) =
    some (.idle, .bumped, .scanning 20 1 ⟨[], 100, false⟩ none [], 1, [], 100, some [⟨9, ⟨10, 20⟩, .hold 100⟩]) := by rfl
  obtain ⟨w₁, ran₁, possible⟩ := Option.bind_eq_some_iff.mp possible
  obtain ⟨w₂, lowered, possible⟩ := Option.bind_eq_some_iff.mp possible
  obtain ⟨w₃, ran₃, possible⟩ := Option.bind_eq_some_iff.mp possible
  obtain ⟨w₄, rechecked, possible⟩ := Option.bind_eq_some_iff.mp possible
  obtain ⟨w, ran, facts⟩ := Option.map_eq_some_iff.mp possible
  simp only [Prod.mk.injEq] at facts
  obtain ⟨idle, bumped, scanned, generation, taken, bound, room⟩ := facts
  obtain ⟨rs, found, intervals⟩ := Option.map_eq_some_iff.mp room
  obtain ⟨_, cycles⟩ := run_others (by rfl) ran₁
  have nobody : ∀ c, w₁.cycles c = .idle := by
    intro c
    by_cases first : c = 0
    · rw [first]
      exact idle
    · exact cycles c first
  have watches : ∀ i, w₃.watches i ≠ .lowered := by
    intro i
    by_cases first : i = 0
    · rw [first, bumped]
      simp
    · rw [((run_others (by rfl) ran₃).1 i first).2,
        ((took lowered).task_other fun same => first (Option.some.inj same).symm).2,
        ((run_others (by rfl) ran₁).1 i first).2]
      simp [on]
  have reached₁ : Reaches (step Tenant.oneShard) Undisturbed (on bareRoom) w₁ :=
    Machine.reaches_of_run (by simp [admitting, Undisturbed]) ran₁
  have apart₁ : w₁.Undisturbed (.lower 0) := by
    intro c _ _ _ publishing
    rw [nobody c] at publishing
    cases publishing
  have reached₂ := reached₁.next (.lower 0) apart₁ lowered
  have reached₃ := reached₂.run (by simp [placed, looking, Undisturbed]) ran₃
  have apart₃ : w₃.Undisturbed (.recheck 0) := by
    intro now before scan phase _
    rw [scanned] at phase
    cases phase
    exact ⟨generation, fun i lowered => absurd lowered (watches i)⟩
  have reached₄ := reached₃.next (.recheck 0) apart₃ rechecked
  have reached := reached₄.run (by simp [Undisturbed]) ran
  exact ⟨w, reached, taken, bound, hold_watched bareRoom_fits reached found (by rw [intervals]; exact List.mem_cons_self) rfl⟩

end Reaping

end Deltat
