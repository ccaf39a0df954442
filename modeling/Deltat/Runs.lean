import Deltat.Compaction
import Deltat.Operations

/-! # Runs of an engine

Between two operations the clock may advance, garbage collection may drop what is past,
and compaction may rewrite the log. A run is any sequence of these from an empty log.
-/

namespace Deltat

open Lib Lib.Outcome

/-! ## Garbage collection -/

namespace ResourceState

/-- What garbage collection leaves of a resource. -/
def collected (now cutoff : Ms) (rs : ResourceState) : ResourceState :=
  { rs with intervals := rs.intervals.filter fun i => !Engine.dominated now cutoff rs.buffer i }

theorem collected_wellFormed {rs : ResourceState} (wf : rs.WellFormed) (now cutoff : Ms) :
    (rs.collected now cutoff).WellFormed where
  sorted := wf.sorted.sublist List.filter_sublist
  idsNodup := wf.idsNodup.sublist (List.filter_sublist.map _)
  admitted i inside := wf.admitted i (List.mem_filter.mp inside).1
  capacity := wf.capacity
  bufferAfter := wf.bufferAfter
  name := wf.name

end ResourceState

namespace Engine

section Collect

variable {s : InMemoryStore} {now cutoff : Ms} {rid : Ulid}

theorem gcResource_getResource (x : Ulid) :
    (gcResource now cutoff s rid).getResource x =
      if x = rid then (s.getResource rid).map (·.collected now cutoff) else s.getResource x := by
  unfold gcResource
  cases present : s.getResource rid with
  | none => by_cases same : x = rid <;> simp [same, present]
  | some rs =>
      by_cases same : x = rid
      · subst same
        simp [InMemoryStore.getResource, ResourceState.collected, List.partition_eq_filter_filter,
          Function.comp_def]
      · simp [InMemoryStore.getResource, AList.lookup_insert_ne, same]

theorem gcResource_getParent (x : Ulid) : (gcResource now cutoff s rid).getParent x = s.getParent x := by
  unfold gcResource
  split
  · rfl
  · exact InMemoryStore.unmapIntervals_getParent _ _ _

theorem gcResource_getChildren (x : Ulid) : (gcResource now cutoff s rid).getChildren x = s.getChildren x := by
  unfold gcResource
  split
  · rfl
  · exact InMemoryStore.unmapIntervals_getChildren _ _ _

theorem gcResource_getResourceForEntity {rs : ResourceState} (present : s.getResource rid = some rs) (x : Ulid) :
    (gcResource now cutoff s rid).getResourceForEntity x =
      if x ∈ (rs.intervals.filter (dominated now cutoff rs.buffer)).map (·.id) then none
      else s.getResourceForEntity x := by
  have index := InMemoryStore.unmapIntervals_getResourceForEntity
    (rs.intervals.filter (dominated now cutoff rs.buffer)) x s
  unfold gcResource
  simp only [present, List.partition_eq_filter_filter]
  exact index

/-- An id of a resource is among the removed or among the kept intervals, never both. -/
theorem mem_collected_ids {rs : ResourceState} (nodup : (rs.intervals.map (·.id)).Nodup) (x : Ulid) :
    x ∈ (rs.collected now cutoff).intervals.map (·.id) ↔ x ∈ rs.intervals.map (·.id) ∧
      x ∉ (rs.intervals.filter (dominated now cutoff rs.buffer)).map (·.id) := by
  have unique : ∀ i ∈ rs.intervals, ∀ j ∈ rs.intervals, i.id = j.id → i = j :=
    fun i inI j inJ => List.inj_on_of_nodup_map nodup inI inJ
  simp only [ResourceState.collected, List.mem_map, List.mem_filter]
  constructor
  · rintro ⟨i, ⟨inside, kept⟩, rfl⟩
    refine ⟨⟨i, inside, rfl⟩, ?_⟩
    rintro ⟨j, ⟨inJ, gone⟩, same⟩
    rw [unique j inJ i inside same] at gone
    simp [gone] at kept
  · rintro ⟨⟨i, inside, rfl⟩, notGone⟩
    refine ⟨i, ⟨inside, ?_⟩, rfl⟩
    rw [Bool.not_eq_true', Bool.eq_false_iff]
    exact fun gone => notGone ⟨i, ⟨inside, gone⟩, rfl⟩

theorem gcResource_consistent (c : s.Consistent) : (gcResource now cutoff s rid).Consistent := by
  cases present : s.getResource rid with
  | none =>
      have same : gcResource now cutoff s rid = s := by simp only [gcResource, present]
      rw [same]
      exact c
  | some rs =>
      have table := @gcResource_getResource s now cutoff rid
      simp only [present, Option.map_some] at table
      have wf := c.wellFormed rid rs present
      have index := @gcResource_getResourceForEntity s now cutoff rid rs present
      have before := fun x => c.entities x rid
      simp only [present, Option.some.injEq, exists_eq_left'] at before
      refine c.replaceOne present table gcResource_getParent gcResource_getChildren rfl
        (c.indexed.replaceOne present table rfl (ResourceState.collected_wellFormed wf now cutoff)
          (fun x => ?_) (fun x q apart => ?_))
      · rw [index, mem_collected_ids wf.idsNodup, ← before]
        split <;> simp_all
      · rw [index]
        split
        · next gone =>
            have here : x ∈ rs.intervals.map (·.id) :=
              (List.filter_sublist.map _).subset gone
            rw [(before x).mpr here]
            simp [Ne.symm apart]
        · rfl

/-- Collection goes through the resource table once. -/
theorem foldl_gcResource {rids : List Ulid} (nodup : rids.Nodup) : ∀ {s : InMemoryStore}, s.Consistent →
    (rids.foldl (gcResource now cutoff) s).Consistent ∧
      ∀ x, (rids.foldl (gcResource now cutoff) s).getResource x =
        if x ∈ rids then (s.getResource x).map (·.collected now cutoff) else s.getResource x := by
  induction rids with
  | nil => exact fun c => ⟨c, fun x => rfl⟩
  | cons r rest ih =>
      intro s c
      obtain ⟨notAgain, nodup⟩ := List.nodup_cons.mp nodup
      have collected : (gcResource now cutoff s r).Consistent := gcResource_consistent c
      obtain ⟨done, table⟩ := ih nodup collected
      refine ⟨done, fun x => ?_⟩
      rw [List.foldl_cons, table, gcResource_getResource]
      by_cases same : x = r
      · subst same
        simp [notAgain]
      · simp [same]

theorem mem_resourceIds {x : Ulid} : x ∈ s.resourceIds ↔ (s.getResource x).isSome :=
  AList.mem_keys.symm.trans AList.lookup_isSome.symm

theorem resourceIds_nodup (s : InMemoryStore) : s.resourceIds.Nodup := AList.keys_nodup _

end Collect

/-- Collection filters every resource's intervals and changes nothing else of the table. -/
theorem gc_getResource {e : Engine} (h : e.Healthy) (now retentionMs : Ms) (x : Ulid) :
    (e.gcPastIntervals now retentionMs).store.getResource x =
      (e.store.getResource x).map (·.collected now (satSub now retentionMs)) := by
  unfold gcPastIntervals
  simp only
  rw [(foldl_gcResource (resourceIds_nodup e.store) h.consistent).2]
  split
  · rfl
  · next absent =>
      rw [mem_resourceIds, Option.not_isSome_iff_eq_none] at absent
      rw [absent]
      rfl

theorem gc_healthy {e : Engine} (h : e.Healthy) (now retentionMs : Ms) :
    (e.gcPastIntervals now retentionMs).Healthy :=
  ⟨h.running, h.noFault, (foldl_gcResource (resourceIds_nodup e.store) h.consistent).1⟩

end Engine

/-! ## Moves -/

/-- One step of a run. -/
inductive Move where
  | tick (ms : Nat)
  | op (o : Op)
  | gc (now retentionMs : Ms)
  | compact (order : List Ulid)

namespace Engine

/-- The engine after a step. -/
def next (e : Engine) : Move → Engine
  | .tick ms => { e with clock := e.clock + ms }
  | .op o => (exec o.run e).2
  | .gc now retentionMs => e.gcPastIntervals now retentionMs
  | .compact order => e.compactWal order

/-- A step that the real system can take here: compaction lists the resources that exist. -/
def Possible (e : Engine) : Move → Prop
  | .compact order => order.Perm e.store.resourceIds
  | _ => True

/-- The engines that runs reach when every step satisfies `allowed`. -/
inductive Reachable (allowed : Engine → Move → Prop) : Engine → Prop where
  | start (clock maxHoldTtlMs : Ms) : Reachable allowed (Engine.start clock maxHoldTtlMs)
  | step {e : Engine} (move : Move) : Reachable allowed e → e.Possible move → allowed e move →
      Reachable allowed (e.next move)

/-- Between operations nothing is recorded, so compaction writes the snapshot alone. -/
theorem compactWal_eq {e : Engine} (running : e.failed = false) (order : List Ulid) :
    e.compactWal order =
      { e with log := Compaction.snapshotEvents (order.filterMap e.store.getResource) } := by
  unfold compactWal Compaction.mergeRecorded
  simp [running]

/-- Every step keeps an engine healthy. -/
theorem next_healthy {e : Engine} (h : e.Healthy) (move : Move) : (e.next move).Healthy := by
  cases move with
  | tick ms => exact ⟨h.running, h.noFault, h.consistent⟩
  | op o => exact (run_writes o h).1
  | gc now retentionMs => exact gc_healthy h now retentionMs
  | compact order =>
      change (e.compactWal order).Healthy
      rw [compactWal_eq h.running]
      exact ⟨h.running, h.noFault, h.consistent⟩

/-- An operation keeps what each of its admitted writes keeps. -/
theorem next_op_invariant {I : Engine → Prop} {e : Engine} (h : e.Healthy) (holds : I e) {o : Op}
    (keeps : ∀ e e' records, e.Healthy → I e → o.Writes records → e.Admits records → e.Wrote e' records → I e') :
    I (e.next (.op o)) := by
  have writes := (run_writes o h).2
  change I (exec o.run e).2
  generalize (exec o.run e).2 = after at writes
  have both : after.Healthy ∧ I after := by
    induction writes with
    | refl => exact ⟨h, holds⟩
    | tail _ step ih =>
        obtain ⟨records, wanted, admits, wrote⟩ := step
        exact ⟨wrote.healthy, keeps _ _ records ih.1 ih.2 wanted admits wrote⟩
  exact both.2

/-- An invariant of runs: it holds of a fresh engine and every step keeps it. -/
theorem Reachable.invariant {allowed : Engine → Move → Prop} {I : Engine → Prop}
    (initial : ∀ clock ttl, I (Engine.start clock ttl))
    (keeps : ∀ e move, I e → e.Possible move → allowed e move → I (e.next move)) {e : Engine}
    (reached : Reachable allowed e) : I e := by
  induction reached with
  | start clock ttl => exact initial clock ttl
  | step move _ possible permitted ih => exact keeps _ move ih possible permitted

theorem Reachable.healthy {allowed : Engine → Move → Prop} {e : Engine} (reached : Reachable allowed e) :
    e.Healthy :=
  reached.invariant start_healthy fun _ move h _ _ => next_healthy h move

end Engine

end Deltat
