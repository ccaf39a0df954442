import Deltat.Notices
import Deltat.Table

/-! # A log that refuses

Operations that persist before they apply: when the log refuses the record, nothing was announced
and memory is as it was, except where a deletion had already taken the resource out of an index.
-/

namespace Deltat

open Lib Lib.Outcome Limits

namespace InMemoryStore

/-- The same resources, entities and links, in whatever order the tables list them. -/
structure SameTables (s t : InMemoryStore) : Prop where
  resources : ∀ r, s.getResource r = t.getResource r
  entities : ∀ x, s.getResourceForEntity x = t.getResourceForEntity x
  parents : ∀ r, s.getParent r = t.getParent r
  children : ∀ r, s.getChildren r = t.getChildren r

theorem SameTables.of_eq {s t : InMemoryStore} (same : s = t) : s.SameTables t := by
  subst same
  exact ⟨fun _ => rfl, fun _ => rfl, fun _ => rfl, fun _ => rfl⟩

/-- An index still knows of a resource: an interval of it is mapped, or its parent lists it. -/
def InIndex (s : InMemoryStore) (rs : ResourceState) (id : Ulid) : Prop :=
  (∃ i ∈ rs.intervals, (s.getResourceForEntity i.id).isSome) ∨ ∃ pid, rs.parentId = some pid ∧ id ∈ s.getChildren pid

section Unlink

variable {s : InMemoryStore} {rs : ResourceState} {id : Ulid}

theorem unlink_getResourceForEntity (x : Ulid) : (s.unlink rs id).getResourceForEntity x =
    if x ∈ rs.intervals.map (·.id) then none else s.getResourceForEntity x := by
  unfold unlink
  cases rs.parentId <;> simp only [removeChild_getResourceForEntity, unmapIntervals_getResourceForEntity]

/-- Taking a resource out of the indexes changes nothing exactly when no index knows of it. -/
theorem unlink_same_iff : (s.unlink rs id).SameTables s ↔ ¬ s.InIndex rs id := by
  constructor
  · rintro same (⟨i, inside, mapped⟩ | ⟨pid, parent, listed⟩)
    · have unmapped := same.entities i.id
      rw [unlink_getResourceForEntity, if_pos (List.mem_map_of_mem inside)] at unmapped
      rw [← unmapped] at mapped
      cases mapped
    · have kids := same.children pid
      rw [unlink_getChildren, if_pos parent] at kids
      rw [← kids] at listed
      simp at listed
  · intro unknown
    refine ⟨unlink_getResource s rs id, fun x => ?_, unlink_getParent, fun r => ?_⟩
    · rw [unlink_getResourceForEntity]
      split
      · next inside =>
          obtain ⟨i, member, rfl⟩ := List.mem_map.mp inside
          cases mapped : s.getResourceForEntity i.id with
          | none => rfl
          | some r => exact absurd (.inl ⟨i, member, by rw [mapped]; rfl⟩) unknown
      · rfl
    · rw [unlink_getChildren]
      split
      · next parent =>
          apply List.filter_eq_self.mpr
          intro c listed
          simp only [decide_eq_true_eq, ne_eq]
          rintro rfl
          exact unknown (.inr ⟨r, parent, listed⟩)
      · rfl

end Unlink

end InMemoryStore

namespace Op

/-- The operations that persist before they apply. -/
def persistsFirst : Op → Bool
  | releaseHold _ | expireHold _ | cancelBooking _ | addRule .. | updateRule .. | removeRule _ | updateResource ..
  | createResource .. | deleteResource _ => true
  | _ => false

/-- A deletion that goes through, of a resource that an index knows of. -/
def Unindexes (e : Engine) : Op → Prop
  | deleteResource id => ∃ rs, e.checkDelete id = .ok rs ∧ e.store.InIndex rs id
  | _ => False

end Op

namespace Engine

/-- The log writer has stopped, or its next flush fails. -/
def LogRefuses (e : Engine) : Prop := e.failed = true ∨ e.flushFault.isSome

variable {e : Engine}

theorem walAppend_refused (refuses : e.LogRefuses) (event : Event) :
    ∃ error e', exec (walAppend event) e = (.error error, e') ∧ e'.store = e.store := by
  unfold walAppend queue
  cases failed : e.failed with
  | true =>
      exact ⟨.walError "this tenant stopped after a failed WAL flush; it is rebuilt from its log on next use", e,
        by simp [exec_bind, failed], rfl⟩
  | false =>
      obtain ⟨what, fault⟩ := Option.isSome_iff_exists.mp (refuses.resolve_left (by simp [failed]))
      exact ⟨.walError what, { e with failed := true, flushFault := none }, by simp [exec_bind, failed, fault], rfl⟩

end Engine

namespace NotifyingEngine

/-- An operation refused, with this store left and nothing sent. -/
def Refuses (s : NotifyingEngine) (store : InMemoryStore) {ε α : Type} (result : Except ε α) (s' : NotifyingEngine) : Prop :=
  (∃ error, result = .error error) ∧ s'.store = store ∧ s'.notify = s.notify

section Refused

variable {s : NotifyingEngine} {store : InMemoryStore} {ε α β : Type}

theorem Refuses.bind {x : ExceptT ε (StateM NotifyingEngine) α} {f : α → ExceptT ε (StateM NotifyingEngine) β}
    (first : Ends x s (Refuses s store)) : Ends (x >>= f) s (Refuses s store) := by
  apply Ends.bind
  apply Ends.mono first
  rintro result s' ⟨⟨error, rfl⟩, same⟩
  exact ⟨⟨error, rfl⟩, same⟩

/-- A check in front either refuses itself or lets through to what refuses. -/
theorem Refuses.check {c : Except ε β} {f : β → ExceptT ε (StateM NotifyingEngine) α}
    (passed : ∀ b, c = .ok b → Ends (f b) s (Refuses s s.store)) : Ends (liftM c >>= f) s (Refuses s s.store) :=
  Ends.check (fun error _ => ⟨⟨error, rfl⟩, rfl, rfl⟩) passed

theorem Refuses.lift {x : NotifyM α} {f : α → NotifyOfferM β} (inner : Ends x s (Refuses s store)) :
    Ends (liftM x >>= f) s (Refuses s store) := by
  apply Refuses.bind
  apply Ends.adapt
  apply Ends.mono inner
  rintro result s' ⟨⟨error, rfl⟩, same⟩
  exact ⟨⟨_, rfl⟩, same⟩

theorem onEngine_refused {x : ExceptT ε (StateM Engine) α} {error : ε} {e' : Engine}
    (ended : exec x s.toEngine = (.error error, e')) : Ends (onEngine x) s (Refuses s e'.store) := by
  have outcome : exec (onEngine x) s = ((exec x s.toEngine).1, { s with toEngine := (exec x s.toEngine).2 }) := rfl
  unfold Ends
  rw [outcome, ended]
  exact ⟨⟨error, rfl⟩, rfl, rfl⟩

theorem persistAndApplyEnded_refused (refuses : s.LogRefuses) (r : Ulid) (event : Event) (ended : Option Ended) :
    Ends (persistAndApplyEnded r event ended) s (Refuses s s.store) := by
  obtain ⟨error, e', refused, same⟩ := Engine.walAppend_refused refuses event
  have stopped : exec (Engine.persistAndApply r event) s.toEngine = (.error error, e') := exec_bind_error refused
  exact Refuses.bind (same ▸ onEngine_refused stopped)

theorem createResource_refused (refuses : s.LogRefuses) (id : Ulid) (parentId : Option Ulid) (name : Option String)
    (capacity : UInt32) (bufferAfter : Option Ms) :
    Ends (createResource id parentId name capacity bufferAfter) s (Refuses s s.store) := by
  apply Refuses.bind
  cases checked : s.checkCreate id parentId name capacity bufferAfter with
  | error error =>
      have stopped : exec (Engine.createResource id parentId name capacity bufferAfter) s.toEngine =
          (.error error, s.toEngine) := by
        unfold Engine.createResource
        rw [exec_bind_ok (exec_get _), checked]
        rfl
      exact onEngine_refused stopped
  | ok u =>
      obtain ⟨error, e', refused, same⟩ :=
        Engine.walAppend_refused refuses (.resourceCreated id parentId name capacity bufferAfter)
      have stopped : exec (Engine.createResource id parentId name capacity bufferAfter) s.toEngine = (.error error, e') := by
        unfold Engine.createResource
        rw [exec_bind_ok (exec_get _), checked, exec_bind_ok (exec_check _ _)]
        exact exec_bind_error refused
      exact same ▸ onEngine_refused stopped

/-- A deletion refuses after it has taken the resource out of the indexes, or before. -/
theorem deleteResource_refused (refuses : s.LogRefuses) (id : Ulid) :
    (∀ error, s.checkDelete id = .error error → Ends (deleteResource id) s (Refuses s s.store)) ∧
      ∀ rs, s.checkDelete id = .ok rs → Ends (deleteResource id) s (Refuses s (s.store.unlink rs id)) := by
  constructor
  · intro error checked
    apply Ends.get
    apply Refuses.bind
    have stopped : exec (Engine.deleteResource id) s.toEngine = (.error error, s.toEngine) := by
      unfold Engine.deleteResource
      rw [exec_bind_ok (exec_get _), checked]
      rfl
    exact onEngine_refused stopped
  · intro rs checked
    apply Ends.get
    apply Refuses.bind
    let unlinked : Engine := { s.toEngine with store := s.store.unlink rs id }
    have still : unlinked.LogRefuses := refuses
    obtain ⟨error, e', refused, same⟩ := Engine.walAppend_refused still (.resourceDeleted id)
    have stopped : exec (Engine.deleteResource id) s.toEngine = (.error error, e') := by
      unfold Engine.deleteResource
      rw [exec_bind_ok (exec_get _), checked, exec_bind_ok (exec_check _ _)]
      exact (exec_bind_ok (exec_modify _ _)).trans (exec_bind_error refused)
    have left : e'.store = s.store.unlink rs id := same
    exact left ▸ onEngine_refused stopped

/-- Every other operation that persists first refuses with memory as it was. -/
theorem perform_refused (refuses : s.LogRefuses) {o : Op} (first : o.persistsFirst = true)
    (other : ∀ id, o ≠ .deleteResource id) : Ends (perform o) s (Refuses s s.store) := by
  cases o with
  | createResource id parentId name capacity bufferAfter => exact .lift (createResource_refused refuses ..)
  | updateResource id name capacity bufferAfter =>
      apply Refuses.lift
      apply Refuses.check
      intro _ _
      apply Ends.get
      apply Refuses.check
      exact fun _ _ => persistAndApplyEnded_refused refuses ..
  | addRule id r span blocking =>
      apply Refuses.lift
      apply Ends.get
      apply Refuses.check
      exact fun _ _ => persistAndApplyEnded_refused refuses ..
  | updateRule id span blocking =>
      apply Refuses.lift
      apply Ends.get
      apply Refuses.check
      exact fun r _ => Refuses.bind (persistAndApplyEnded_refused refuses ..)
  | removeRule id | releaseHold id | expireHold id | cancelBooking id =>
      apply Refuses.lift
      apply Ends.get
      apply Refuses.check
      exact fun found _ => Refuses.bind (persistAndApplyEnded_refused refuses ..)
  | deleteResource id => exact absurd rfl (other id)
  | batchCreateResources | batchAddRules | placeHold | batchPlaceHolds | commitHolds | confirmBooking
  | batchConfirmBookings => cases first

/-- When the log refuses, an operation that persists first refuses and sends nothing, and memory is as it was unless
    the operation is a deletion of a resource that an index knew of. -/
theorem log_refusal_untouched_iff {o : Op} (first : o.persistsFirst = true) (refuses : s.LogRefuses) :
    ∃ refused s', exec (perform o) s = (.error refused, s') ∧
      (s'.store.SameTables s.store ∧ s'.notify = s.notify ↔ ¬ o.Unindexes s.toEngine) := by
  have left : ∀ store : InMemoryStore, Ends (perform o) s (Refuses s store) →
      (store.SameTables s.store ↔ ¬ o.Unindexes s.toEngine) → ∃ refused s', exec (perform o) s = (.error refused, s') ∧
        (s'.store.SameTables s.store ∧ s'.notify = s.notify ↔ ¬ o.Unindexes s.toEngine) := by
    rintro store ⟨⟨refused, result⟩, kept, notify⟩ same
    refine ⟨refused, _, Prod.ext result rfl, ?_⟩
    rw [kept, ← same]
    exact and_iff_left notify
  by_cases deletion : ∃ id, o = .deleteResource id
  · obtain ⟨id, rfl⟩ := deletion
    obtain ⟨early, late⟩ := deleteResource_refused refuses id
    cases checked : s.checkDelete id with
    | error error =>
        apply left s.store (.lift (early error checked))
        apply iff_of_true (.of_eq rfl)
        rintro ⟨rs, passed, _⟩
        rw [checked] at passed
        cases passed
    | ok rs =>
        apply left (s.store.unlink rs id) (.lift (late rs checked))
        rw [InMemoryStore.unlink_same_iff]
        apply not_congr
        constructor
        · exact fun known => ⟨rs, checked, known⟩
        · rintro ⟨rs', passed, known⟩
          rw [checked] at passed
          cases passed
          exact known
  · apply left s.store (perform_refused refuses first fun id same => deletion ⟨id, same⟩)
    apply iff_of_true (.of_eq rfl)
    intro unindexes
    cases o with
    | deleteResource id => exact deletion ⟨id, rfl⟩
    | _ => exact unindexes

end Refused

/-- A building with a room, when the disk is full. -/
def diskFull : NotifyingEngine :=
  (run [.op (.createResource 1 none none 1 none), .op (.createResource 2 (some 1) none 1 none), .fault "disk full"]
    ⟨Engine.start 0 1000, ∅, []⟩).2

theorem diskFull_refuses : diskFull.LogRefuses := .inr rfl

/-- The room cannot be deleted, yet its building no longer lists it. -/
theorem refused_deletion_unlists : diskFull.LogRefuses ∧ (∃ refused, (exec (perform (.deleteResource 2)) diskFull).1 = .error refused) ∧
    ¬ ((exec (perform (.deleteResource 2)) diskFull).2.store.SameTables diskFull.store ∧
      (exec (perform (.deleteResource 2)) diskFull).2.notify = diskFull.notify) := by
  refine ⟨diskFull_refuses, ⟨_, rfl⟩, fun same => ?_⟩
  have kids := same.1.children 1
  have after : (exec (perform (.deleteResource 2)) diskFull).2.store.getChildren 1 = [] := by decide +kernel
  have before : diskFull.store.getChildren 1 = [2] := by decide +kernel
  rw [after, before] at kids
  cases kids

/-- A new resource is refused with memory as it was. -/
theorem refused_creation_untouched : ∃ refused s',
    exec (perform (.createResource 3 none none 1 none)) diskFull = (.error refused, s') ∧
      (s'.store.SameTables diskFull.store ∧ s'.notify = diskFull.notify ↔
        ¬ Op.Unindexes diskFull.toEngine (.createResource 3 none none 1 none)) :=
  log_refusal_untouched_iff rfl diskFull_refuses

end NotifyingEngine

end Deltat
