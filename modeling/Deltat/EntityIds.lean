import Deltat.Runs
import Deltat.TenantSteps

/-! # One interval for an entity id

A request checks its ids against the entity index and maps them when it applies its changes.
In between the ids are claimed and nobody else can see it. As long as no id is claimed by two
requests at once, an id names one interval of the tenant.
-/

namespace Deltat

open Lib Machine

namespace Task

/-- The changes a request has decided on and not applied. -/
def outstanding : Task → List Event
  | sending _ _ records => records.flatMap Event.perResource
  | sent _ _ pending => pending.map (·.2)
  | _ => []

/-- The ids a request has found free and not mapped. -/
def claimed : Task → List Ulid
  | claiming _ _ _ claimed _ => claimed
  | task => task.outstanding.filterMap Event.addedId

/-- The id that a request is about to check. -/
def nextClaim : Task → Option Ulid
  | claiming _ _ _ _ (x :: _) => some x
  | _ => none

/-- The resources a request has looked up. -/
def handles : Task → List Handle
  | locking _ _ held found _ => held ++ found.toList
  | task => task.held

theorem held_handles {task : Task} {h : Handle} (inside : h ∈ task.held) : h ∈ task.handles := by
  cases task with
  | locking => exact List.mem_append_left _ inside
  | _ => exact inside

end Task

namespace Event

/-- What a change is about: an id that it introduces, or one that it removes. -/
theorem touches_cases {change : Event} {x : Ulid} (touched : x ∈ change.touches) :
    change.addedId = some x ∧ change.removes = none ∨ change.removes = some x := by
  rw [mem_touches] at touched
  cases change <;> simp_all [addedId, removes, adds]

theorem addedId_adds {change : Event} {r x : Ulid} (routed : change.resourceId? = some r)
    (added : change.addedId = some x) : change.removes = none ∧ ∃ i, change.adds = some i ∧ i.id = x := by
  cases change <;> simp_all [addedId, resourceId?, removes, adds]

end Event

/-- What holds of one request in a store where every resource it looked up is still the one in
    the table. -/
structure Task.Sound (s : InMemoryStore) (task : Task) : Prop where
  current : ∀ h ∈ task.handles, h.2 = 0 ∧ (s.getResource h.1).isSome
  free : ∀ x ∈ task.claimed, s.getResourceForEntity x = none
  order : ∀ request targets held claimed unclaimed, task = .claiming request targets held claimed unclaimed →
    request.1.claims = claimed ++ unclaimed
  applies : s.AllApply task.outstanding
  locked : ∀ change ∈ task.outstanding, ∃ h ∈ task.held, change.resourceId? = some h.1
  routed : ∀ p ∈ task.pending, p.2.resourceId? = some p.1.1 ∧ p.1 ∈ task.held

/-- A change about other entities leaves a request sound. -/
theorem Task.Sound.after {s : InMemoryStore} {task : Task} {change : Event} {r : Ulid} (sound : task.Sound s)
    (applies : change.Applies s r) (apart : ∀ other ∈ task.outstanding, change.Independent other)
    (untouched : ∀ x ∈ task.claimed, x ∉ change.touches) : task.Sound (s.replayChange change) where
  current h inside := by
    obtain ⟨current, present⟩ := sound.current h inside
    refine ⟨current, ?_⟩
    rw [InMemoryStore.replayChange_getResource applies.routed]
    split
    · rw [Option.isSome_map]
      exact applies.present
    · exact present
  free x inside := by
    obtain ⟨rs, present⟩ := Option.isSome_iff_exists.mp applies.present
    have notHere := untouched x inside
    rw [Event.mem_touches, not_or] at notHere
    rw [InMemoryStore.replayChange_getResourceForEntity applies.routed present, if_neg notHere.2, if_neg notHere.1]
    exact sound.free x inside
  order := sound.order
  applies := by
    refine ⟨fun other inside => ?_, sound.applies.apart⟩
    obtain ⟨q, later⟩ := sound.applies.applies other inside
    exact ⟨q, InMemoryStore.Event.Applies.after applies later (apart other inside)⟩
  locked := sound.locked
  routed := sound.routed

/-- One change less to apply. -/
theorem Task.Sound.rest {s : InMemoryStore} {request : Request.Prepared} {held : List Handle} {p : Handle × Event}
    {rest : List (Handle × Event)} (sound : (Task.sent request held (p :: rest)).Sound s) :
    (Task.sent request held rest).Sound s where
  current := sound.current
  free x inside := by
    obtain ⟨change, decided, added⟩ := List.mem_filterMap.mp inside
    exact sound.free x (List.mem_filterMap.mpr ⟨change, List.mem_cons_of_mem _ decided, added⟩)
  order _ _ _ _ _ same := by cases same
  applies := ⟨fun change inside => sound.applies.applies change (List.mem_cons_of_mem _ inside),
    (List.pairwise_cons.mp sound.applies.apart).2⟩
  locked change inside := sound.locked change (List.mem_cons_of_mem _ inside)
  routed p inside := sound.routed p (List.mem_cons_of_mem _ inside)

/-- A request that has claimed and decided nothing is sound by what it has looked up. -/
theorem Task.Sound.plain {s : InMemoryStore} {task : Task}
    (current : ∀ h ∈ task.handles, h.2 = 0 ∧ (s.getResource h.1).isSome) (nothing : task.claimed = [])
    (undecided : task.outstanding = []) (unsent : task.pending = [])
    (order : ∀ request targets held claimed unclaimed, task = .claiming request targets held claimed unclaimed →
      request.1.claims = claimed ++ unclaimed) : task.Sound s where
  current := current
  free x inside := by simp [nothing] at inside
  order := order
  applies := by
    rw [undecided]
    exact ⟨fun _ inside => (List.not_mem_nil inside).elim, .nil⟩
  locked change inside := by simp [undecided] at inside
  routed p inside := by simp [unsent] at inside

namespace Tenant

variable {shards : Shards} {t t' : Tenant} {a : Action}

/-- A request comes by a handle by looking a resource up. -/
theorem Took.looked (took : t.Took shards a t') {j : TaskId} {h : Handle} (inside : h ∈ (t'.tasks j).handles) :
    h ∈ (t.tasks j).handles ∨ t.memory.lookUp h.1 = some h := by
  by_cases own : a.task = some j
  · cases took with
    | lookUp phase present =>
        cases own
        rw [phase]
        simp only [setTask_self, Task.handles, List.mem_append, Option.mem_toList, Option.some.injEq] at inside
        rcases inside with before | rfl
        · exact .inl (List.mem_append_left _ before)
        · exact .inr (lookUp_eq.mpr ⟨rfl, present⟩)
    | lock phase =>
        cases own
        rw [phase]
        exact .inl (by simpa [Task.handles] using inside)
    | allLocked phase | claim phase | check phase | send phase | apply phase =>
        cases own
        rw [phase]
        exact .inl (by simpa [Task.handles, Task.held] using inside)
    | start | release | fail | answer | refuse =>
        cases own
        simp [Task.handles, Task.held] at inside
    | _ => cases own
  · rw [took.tasks_other own] at inside
    exact .inl inside

/-- Ids are unique in memory, and no id is claimed twice. -/
structure Exclusive (t : Tenant) : Prop where
  locks : t.Locks
  consistent : t.memory.store.Consistent
  removed : ∀ r, t.memory.removed r = 0
  sound : ∀ i, (t.tasks i).Sound t.memory.store
  apart : ∀ i j, i ≠ j → ∀ x ∈ (t.tasks i).claimed, x ∉ (t.tasks j).claimed

/-- An action other than a step of a create or a delete. -/
def Action.leavesTopology : Action → Bool
  | .create .. | .delete _ | .unlink | .clear | .sendTopology | .finishTopology | .abandonTopology => false
  | _ => true

/-- When a request finds an id free, no other request has claimed it. -/
def ClaimsAlone (t : Tenant) : Action → Prop
  | .claim i => ∀ x, (t.tasks i).nextClaim = some x → ∀ j, j ≠ i → x ∉ (t.tasks j).claimed
  | _ => True

theorem on_exclusive {e : Engine} (consistent : e.store.Consistent) : (on e).Exclusive where
  locks := on_locks e
  consistent := consistent
  removed _ := rfl
  sound _ := by
    refine ⟨?_, ?_, ?_, ⟨?_, .nil⟩, ?_, ?_⟩
    all_goals simp [on, Task.handles, Task.held, Task.claimed, Task.outstanding, Task.pending]
  apart _ _ _ x inside := by simp [on, Task.claimed, Task.outstanding] at inside

theorem Exclusive.read (inv : t.Exclusive) {h : Handle} (current : h.2 = 0) :
    t.memory.read h = t.memory.store.getResource h.1 := by
  rw [Memory.read, inv.removed, if_pos current]

/-- A request moves on without touching memory. -/
theorem Exclusive.setTask (inv : t.Exclusive) {i : TaskId} {task : Task} (locks : t'.Locks)
    (memory : t'.memory = t.memory) (tasks : t'.tasks = Function.update t.tasks i task)
    (sound : task.Sound t.memory.store)
    (apart : ∀ j, j ≠ i → ∀ x ∈ task.claimed, x ∉ (t.tasks j).claimed) : t'.Exclusive where
  locks := locks
  consistent := by rw [memory]; exact inv.consistent
  removed := by rw [memory]; exact inv.removed
  sound j := by
    rw [tasks, memory, Function.update_apply]
    split
    · exact sound
    · exact inv.sound j
  apart j k different x inside := by
    rw [tasks, Function.update_apply] at inside ⊢
    split at inside
    · next own =>
        rw [if_neg fun same => different (own.trans same.symm)]
        exact apart k (fun same => different (own.trans same.symm)) x inside
    · split
      · next other _ => exact fun mine => apart j other x mine inside
      · exact inv.apart j k different x inside

/-- The state behind a lock is the one in the table, and only for a lock held there is one. -/
theorem Exclusive.guard (inv : t.Exclusive) {i : TaskId} {rid : Ulid} {rs : ResourceState}
    (shown : t.guard (t.tasks i).held rid = some rs) :
    t.memory.store.getResource rid = some rs ∧ ∃ h ∈ (t.tasks i).held, h.1 = rid := by
  obtain ⟨h, found, read⟩ := Option.bind_eq_some_iff.mp shown
  have inside := List.mem_of_find?_eq_some found
  have same : h.1 = rid := by simpa using List.find?_some found
  rw [inv.read ((inv.sound i).current h (Task.held_handles inside)).1, same] at read
  exact ⟨read, h, inside, same⟩

/-- What a request decides under its locks, with its claims free, is sound. -/
theorem Exclusive.decide (inv : t.Exclusive) {i : TaskId} {request : Request.Prepared} {targets : List Ulid}
    {held : List Handle} {claimed : List Ulid} {now : Ms} {rules : Ulid → InheritedRules} {records : List Event}
    (phase : t.tasks i = .claiming request targets held claimed [])
    (admitted : request.1.admitRecords { t.engine with clock := now } (t.guard held) rules targets = .ok records) :
    (Task.sending request held records).Sound t.memory.store ∧
      ∀ x ∈ (Task.sending request held records).claimed, x ∈ (t.tasks i).claimed := by
  have mine : (t.tasks i).held = held := by rw [phase]; rfl
  have sound := inv.sound i
  have whole : request.1.claims = claimed := by
    rw [sound.order _ _ _ _ _ phase, List.append_nil]
  have free : ∀ x ∈ request.1.claims, t.memory.store.getResourceForEntity x = none := by
    intro x inside
    apply sound.free x
    rw [phase]
    exact whole ▸ inside
  obtain ⟨_, covers⟩ := Request.admitRecords_covers admitted
  have introduced : ∀ x ∈ (Task.sending request held records).claimed, x ∈ request.1.claims := by
    intro x inside
    obtain ⟨change, decided, added⟩ := List.mem_filterMap.mp inside
    obtain ⟨rid, covered⟩ := covers change decided
    obtain ⟨removes, i, adds, rfl⟩ := Event.addedId_adds covered.routed added
    refine (covered.claimed i adds).resolve_right fun removed => ?_
    rw [removes] at removed
    cases removed
  refine ⟨⟨?_, fun x inside => free x (introduced x inside), fun _ _ _ _ _ same => (by cases same), ?_, ?_, ?_⟩, ?_⟩
  · intro h inside
    apply sound.current h
    rw [phase]
    exact inside
  · exact Request.admitRecords_allApply (e := { t.engine with clock := now }) inv.consistent request.2
      (fun rid rs shown => (inv.guard (mine.symm ▸ shown)).1) free admitted
  · intro change inside
    obtain ⟨rid, covered⟩ := covers change inside
    obtain ⟨rs, shown, _⟩ := covered.guarded
    obtain ⟨h, inHeld, same⟩ := (inv.guard (mine.symm ▸ shown)).2
    exact ⟨h, mine ▸ inHeld, by rw [same]; exact covered.routed⟩
  · exact fun p inside => (List.not_mem_nil inside).elim
  · intro x inside
    rw [phase]
    exact whole ▸ introduced x inside

/-- Queueing regroups what was decided by the locks that will apply it. -/
theorem Exclusive.queue (inv : t.Exclusive) {i : TaskId} {request : Request.Prepared} {held : List Handle}
    {records : List Event} (phase : t.tasks i = .sending request held records) :
    (Task.sent request held (pendingOn held records)).Sound t.memory.store ∧
      ∀ x ∈ (Task.sent request held (pendingOn held records)).claimed, x ∈ (t.tasks i).claimed := by
  have sound := inv.sound i
  have mine : (t.tasks i).held = held := by rw [phase]; rfl
  have decided : (t.tasks i).outstanding = records.flatMap Event.perResource := by rw [phase]; rfl
  have claims : (t.tasks i).claimed = (records.flatMap Event.perResource).filterMap Event.addedId := by rw [phase]; rfl
  have regrouped : (Task.sent request held (pendingOn held records)).outstanding =
      Engine.regroup (held.map Prod.fst) (records.flatMap Event.perResource) := by
    simp only [Task.outstanding, pendingOn, Engine.regroup, List.map_flatMap, List.map_map, List.flatMap_map,
      Function.comp_def, List.map_id']
  have narrower : ∀ change ∈ (Task.sent request held (pendingOn held records)).outstanding,
      change ∈ records.flatMap Event.perResource := by
    rw [regrouped]
    exact fun change inside => (Engine.mem_regroup inside).1
  have looked : ∀ h ∈ held, h.2 = 0 ∧ (t.memory.store.getResource h.1).isSome := by
    intro h inside
    apply sound.current h
    rw [phase]
    exact inside
  have nodup : (held.map Prod.fst).Nodup := by
    refine (mine ▸ inv.locks.nodup i).map_on fun h inside h' inside' same => ?_
    exact Prod.ext same ((looked h inside).1.trans (looked h' inside').1.symm)
  have introduced : ∀ x ∈ (Task.sent request held (pendingOn held records)).claimed, x ∈ (t.tasks i).claimed := by
    intro x inside
    obtain ⟨change, isOutstanding, added⟩ := List.mem_filterMap.mp inside
    rw [claims]
    exact List.mem_filterMap.mpr ⟨change, narrower change isOutstanding, added⟩
  refine ⟨⟨looked, fun x inside => sound.free x (introduced x inside), fun _ _ _ _ _ same => (by cases same), ?_,
    fun change inside => ?_, fun p inside => ?_⟩, introduced⟩
  · rw [regrouped]
    exact Engine.regroup_allApply nodup (decided ▸ sound.applies)
  · obtain ⟨h, inHeld, routed⟩ := sound.locked change (decided ▸ narrower change inside)
    exact ⟨h, mine ▸ inHeld, routed⟩
  · obtain ⟨inHeld, _, routed⟩ := mem_pendingOn.mp inside
    exact ⟨routed, inHeld⟩

/-- Changes that two requests have decided on are about different entities. -/
theorem Exclusive.independent (inv : t.Exclusive) {i j : TaskId} (different : i ≠ j) {change other : Event}
    (mine : change ∈ (t.tasks i).outstanding) (theirs : other ∈ (t.tasks j).outstanding) :
    change.Independent other := by
  have claims : ∀ {k : TaskId} {c : Event} {x : Ulid}, c ∈ (t.tasks k).outstanding → c.addedId = some x →
      x ∈ (t.tasks k).claimed := by
    intro k c x decided added
    have claimed : x ∈ (t.tasks k).outstanding.filterMap Event.addedId := List.mem_filterMap.mpr ⟨c, decided, added⟩
    cases phase : t.tasks k <;> rw [phase] at decided claimed
    case claiming => exact (List.not_mem_nil decided).elim
    all_goals exact claimed
  -- What a request removes is mapped to a resource that it has locked.
  have removes : ∀ {k : TaskId} {c : Event} {x : Ulid}, c ∈ (t.tasks k).outstanding → c.removes = some x →
      ∃ h ∈ (t.tasks k).held, t.memory.store.getResourceForEntity x = some h.1 ∧ h.2 = 0 := by
    intro k c x decided removed
    obtain ⟨r, applies⟩ := (inv.sound k).applies.applies c decided
    obtain ⟨h, inHeld, routed⟩ := (inv.sound k).locked c decided
    have same : r = h.1 := Option.some.inj (applies.routed.symm.trans routed)
    exact ⟨h, inHeld, same ▸ applies.removes x removed, ((inv.sound k).current h (Task.held_handles inHeld)).1⟩
  intro x inMine inTheirs
  rcases Event.touches_cases inMine with ⟨added, _⟩ | removed <;>
    rcases Event.touches_cases inTheirs with ⟨added', _⟩ | removed'
  · exact inv.apart i j different x (claims mine added) (claims theirs added')
  · obtain ⟨_, _, mapped, _⟩ := removes theirs removed'
    rw [(inv.sound i).free x (claims mine added)] at mapped
    cases mapped
  · obtain ⟨_, _, mapped, _⟩ := removes mine removed
    rw [(inv.sound j).free x (claims theirs added')] at mapped
    cases mapped
  · obtain ⟨h, inHeld, mapped, current⟩ := removes mine removed
    obtain ⟨h', inHeld', mapped', current'⟩ := removes theirs removed'
    have same : h = h' := Prod.ext (Option.some.inj (mapped.symm.trans mapped')) (current.trans current'.symm)
    exact different (inv.locks.exclusive inHeld (same ▸ inHeld'))

/-- Applying a change keeps every request sound. -/
theorem Exclusive.apply (inv : t.Exclusive) {i : TaskId} {request : Request.Prepared} {held : List Handle} {h : Handle}
    {change : Event} {rest : List (Handle × Event)} (phase : t.tasks i = .sent request held ((h, change) :: rest))
    (locks : t'.Locks) (tasks : t'.tasks = Function.update t.tasks i (.sent request held rest))
    (memory : t'.memory = t.memory.apply h change) : t'.Exclusive := by
  have sound := inv.sound i
  rw [phase] at sound
  have decided : change ∈ (t.tasks i).outstanding := by rw [phase]; exact List.mem_cons_self
  obtain ⟨routed, inHeld⟩ := sound.routed _ List.mem_cons_self
  obtain ⟨r, applies⟩ := sound.applies.applies change List.mem_cons_self
  have current : h.2 = t.memory.removed h.1 := (sound.current h inHeld).1.trans (inv.removed h.1).symm
  have store : t'.memory.store = t.memory.store.replayChange change := by
    rw [memory, Memory.apply, if_pos current]
    simp only [InMemoryStore.replayChange, routed]
  refine ⟨locks, ?_, ?_, fun j => ?_, fun j k different x inside => ?_⟩
  · rw [store]
    exact inv.consistent.replayChange applies
  · rw [memory, Memory.apply_removed]
    exact inv.removed
  · rw [store, tasks, Function.update_apply]
    split
    · refine sound.rest.after applies (List.pairwise_cons.mp sound.applies.apart).1 fun x inside touched => ?_
      obtain ⟨other, later, added⟩ := List.mem_filterMap.mp inside
      obtain ⟨q, applies'⟩ := sound.applies.applies other (List.mem_cons_of_mem _ later)
      obtain ⟨_, i, adds, rfl⟩ := Event.addedId_adds applies'.routed added
      exact (List.pairwise_cons.mp sound.applies.apart).1 other later i.id touched
        (Event.mem_touches.mpr (.inr (by rw [adds]; rfl)))
    · next other =>
        refine (inv.sound j).after applies (fun b inside => inv.independent (Ne.symm other) decided inside)
          fun x inside touched => ?_
        rcases Event.touches_cases touched with ⟨added, _⟩ | removed
        · refine inv.apart j i other x inside ?_
          rw [phase]
          exact List.mem_filterMap.mpr ⟨change, List.mem_cons_self, added⟩
        · have mapped := applies.removes x removed
          rw [(inv.sound j).free x inside] at mapped
          cases mapped
  · have narrower : ∀ k, ∀ x ∈ (t'.tasks k).claimed, x ∈ (t.tasks k).claimed := by
      intro k x inside
      rw [tasks, Function.update_apply] at inside
      split at inside
      · next own =>
          rw [own, phase]
          obtain ⟨b, later, added⟩ := List.mem_filterMap.mp inside
          exact List.mem_filterMap.mpr ⟨b, List.mem_cons_of_mem _ later, added⟩
      · exact inside
    exact fun theirs => inv.apart j k different x (narrower j x inside) (narrower k x theirs)

/-- A step keeps ids unique as long as no id is claimed twice. -/
theorem Exclusive.took (inv : t.Exclusive) (took : t.Took shards a t') (resources : a.leavesTopology)
    (alone : ClaimsAlone t a) : t'.Exclusive := by
  have locks := inv.locks.took took
  cases took with
  | start phase =>
      exact inv.setTask locks rfl rfl (.plain (fun h inside => (List.not_mem_nil inside).elim) rfl rfl rfl
        fun _ _ _ _ _ same => (by cases same)) fun _ _ x inside => (List.not_mem_nil inside).elim
  | @lookUp i _ _ held rid _ phase present =>
      refine inv.setTask locks rfl rfl (.plain (fun h inside => ?_) rfl rfl rfl fun _ _ _ _ _ same => (by cases same))
        fun _ _ x inside => (List.not_mem_nil inside).elim
      rcases List.mem_append.mp inside with before | now
      · apply (inv.sound i).current h
        rw [phase]
        exact List.mem_append_left _ before
      · cases List.mem_singleton.mp now
        exact ⟨inv.removed rid, present⟩
  | @lock i _ _ held h _ phase =>
      refine inv.setTask locks rfl rfl (.plain (fun h' inside => ?_) rfl rfl rfl fun _ _ _ _ _ same => (by cases same))
        fun _ _ x inside => (List.not_mem_nil inside).elim
      apply (inv.sound i).current h'
      rw [phase]
      simpa [Task.handles] using inside
  | @allLocked i _ _ held phase =>
      refine inv.setTask locks rfl rfl (.plain (fun h inside => ?_) rfl rfl rfl fun _ _ _ _ _ same => ?_)
        fun _ _ x inside => (List.not_mem_nil inside).elim
      · apply (inv.sound i).current h
        rw [phase]
        exact List.mem_append_left _ inside
      · cases same
        rfl
  | @claim i request targets held claimed rest x phase free =>
      have sound := inv.sound i
      rw [phase] at sound
      refine inv.setTask locks rfl rfl ⟨sound.current, fun y inside => ?_, fun _ _ _ _ _ same => ?_, sound.applies,
        sound.locked, sound.routed⟩ fun j other y inside => ?_
      · rcases List.mem_append.mp inside with before | now
        · exact sound.free y before
        · cases List.mem_singleton.mp now
          exact free
      · cases same
        rw [sound.order _ _ _ _ _ rfl, List.append_assoc, List.singleton_append]
      · rcases List.mem_append.mp inside with before | now
        · exact inv.apart i j (Ne.symm other) y (by rw [phase]; exact before)
        · cases List.mem_singleton.mp now
          exact alone x (by rw [phase]; rfl) j other
  | @check i _ _ _ _ _ _ _ phase _ admitted =>
      obtain ⟨sound, narrower⟩ := inv.decide phase admitted
      exact inv.setTask locks rfl rfl sound fun j other x inside => inv.apart i j (Ne.symm other) x (narrower x inside)
  | @send i _ _ _ phase =>
      obtain ⟨sound, narrower⟩ := inv.queue phase
      exact inv.setTask locks rfl rfl sound fun j other x inside => inv.apart i j (Ne.symm other) x (narrower x inside)
  | apply phase => exact inv.apply phase locks rfl rfl
  | release phase | fail phase | answer phase | refuse =>
      exact inv.setTask locks rfl rfl (.plain (fun h inside => (List.not_mem_nil inside).elim) rfl rfl rfl
        fun _ _ _ _ _ same => (by cases same)) fun _ _ x inside => (List.not_mem_nil inside).elim
  | create | delete | unlink | clear | sendCreate | sendDelete | finishCreate | finishDelete | abandon => cases resources
  | tick | flush | handle | beginCompaction | enterWindow | list | allListed | lookSnapshot | snapshot | submit
  | finishCompaction => exact ⟨locks, inv.consistent, inv.removed, inv.sound, inv.apart⟩

/-- No two intervals of the tenant carry the same id. -/
def IdsUnique (t : Tenant) : Prop := ∀ r q rs qs, t.memory.store.getResource r = some rs →
  t.memory.store.getResource q = some qs →
    (rs.intervals.map (·.id)).Nodup ∧ ∀ x ∈ rs.intervals.map (·.id), x ∈ qs.intervals.map (·.id) → r = q

theorem Exclusive.idsUnique (inv : t.Exclusive) : t.IdsUnique := by
  intro r q rs qs here there
  refine ⟨(inv.consistent.wellFormed r rs here).idsNodup, fun x inside inside' => ?_⟩
  have first := (inv.consistent.entities x r).mpr ⟨rs, here, inside⟩
  have second := (inv.consistent.entities x q).mpr ⟨qs, there, inside'⟩
  exact Option.some.inj (first.symm.trans second)

/-- In every run in which no id is claimed by two requests at once, ids are unique. -/
theorem ids_unique {e : Engine} (reachable : Engine.Reachable (fun _ _ => True) e)
    (reached : Reaches (step shards) (fun t a => a.leavesTopology ∧ ClaimsAlone t a) (on e) t) : t.IdsUnique :=
  (reached.invariant (on_exclusive reachable.healthy.consistent) fun _ _ _ inv allowed taken =>
    inv.took (took taken) allowed.1 allowed.2).idsUnique

/-! ## Two requests with one id -/

def twoRooms : Engine :=
  ((Engine.start 0 1000).next (.op (.createResource 1 none none 1 none))).next (.op (.createResource 2 none none 1 none))

theorem twoRooms_reachable : Engine.Reachable (fun _ _ => True) twoRooms :=
  .step _ (.step _ (.start 0 1000) trivial trivial) trivial trivial

/-- A hold request up to its check of the id. -/
def placing (i : TaskId) (room : Ulid) : List Action :=
  [.start i (.placeHold 9 room ⟨⟨10, 20⟩, slot_valid⟩ 100), .lookUp i, .lock i, .allLocked i]

/-- From the check of the id on. -/
def placed (i : TaskId) : List Action := [.check i 0 noRules, .send i, .apply i, .release i]

/-- Two holds with one id on two rooms, each checked before the other is applied. -/
def racing : List Action := placing 0 1 ++ placing 1 2 ++ [.claim 0, .claim 1] ++ placed 0 ++ placed 1

def raced : Tenant := (Machine.run (step oneShard) racing (on twoRooms)).getD (on twoRooms)

theorem raced_ran : Machine.run (step oneShard) racing (on twoRooms) = some raced := by
  have possible : (Machine.run (step oneShard) racing (on twoRooms)).isSome := by decide +kernel
  obtain ⟨t, ran⟩ := Option.isSome_iff_exists.mp possible
  rw [raced, ran]
  rfl

theorem raced_rooms : (raced.memory.store.getResource 1).map (·.intervals.map (·.id)) = some [9] ∧
    (raced.memory.store.getResource 2).map (·.intervals.map (·.id)) = some [9] := by decide +kernel

/-- Both holds are placed. -/
theorem raced_duplicate : Engine.Reachable (fun _ _ => True) twoRooms ∧
    Reaches (step oneShard) (fun _ a => a.leavesTopology) (on twoRooms) raced ∧ ¬ raced.IdsUnique := by
  refine ⟨twoRooms_reachable, Machine.reaches_of_run ?_ raced_ran, fun unique => ?_⟩
  · have kinds : racing.all Action.leavesTopology = true := rfl
    exact fun a inside _ => List.all_eq_true.mp kinds a inside
  · obtain ⟨one, first, ids⟩ := Option.map_eq_some_iff.mp raced_rooms.1
    obtain ⟨two, second, ids'⟩ := Option.map_eq_some_iff.mp raced_rooms.2
    have same := (unique 1 2 one two first second).2 9 (by rw [ids]; exact List.mem_cons_self)
      (by rw [ids']; exact List.mem_cons_self)
    cases same

/-- One of them alone: when it checks its id, nobody else has started. -/
theorem placed_alone : ∃ t, Reaches (step oneShard) (fun t a => a.leavesTopology ∧ ClaimsAlone t a) (on twoRooms) t ∧
    (t.memory.store.getResource 1).map (·.intervals.map (·.id)) = some [9] ∧ t.IdsUnique := by
  have possible : (((Machine.run (step oneShard) (placing 0 1) (on twoRooms)).bind fun t =>
      (t.step oneShard (.claim 0)).bind (Machine.run (step oneShard) (placed 0))).map fun t =>
        (t.memory.store.getResource 1).map (·.intervals.map (·.id))) = some (some [9]) := by decide +kernel
  obtain ⟨t, ran, room⟩ := Option.map_eq_some_iff.mp possible
  obtain ⟨before, located, ran⟩ := Option.bind_eq_some_iff.mp ran
  obtain ⟨after, claimed, ran⟩ := Option.bind_eq_some_iff.mp ran
  have alone : ClaimsAlone before (.claim 0) := by
    intro x _ j other inside
    have tasks : (placing 0 1).map Action.task = [some 0, some 0, some 0, some 0] := rfl
    have idle : before.tasks j = .idle := run_tasks_other (fun a inside own => by
      have mine := List.mem_map_of_mem (f := Action.task) inside
      rw [tasks, own] at mine
      simp [other] at mine) located
    rw [idle] at inside
    cases inside
  have reached : Reaches (step oneShard) (fun t a => a.leavesTopology ∧ ClaimsAlone t a) (on twoRooms) before :=
    Machine.reaches_of_run
      (by rintro a (_ | ⟨_, _ | ⟨_, _ | ⟨_, _ | ⟨_, ⟨⟩⟩⟩⟩⟩) s <;> exact ⟨rfl, trivial⟩) located
  have done := (reached.next (.claim 0) ⟨rfl, alone⟩ claimed).run
    (by rintro a (_ | ⟨_, _ | ⟨_, _ | ⟨_, _ | ⟨_, ⟨⟩⟩⟩⟩⟩) s <;> exact ⟨rfl, trivial⟩) ran
  exact ⟨t, done, room, ids_unique twoRooms_reachable done⟩

end Tenant

end Deltat
