import Deltat.CompactionDurability
import Deltat.Hierarchy
import Deltat.Lib.Cycles
import Deltat.LogOwners

/-! # The repair of orphans, and the next restart

At startup a child whose parent is gone becomes a root, in memory only: until a compaction the
log goes on naming the parent. The parents after another start are those in memory exactly when
nobody used a lost parent's id again before the log was rewritten.
-/

namespace Deltat

open Lib Outcome History Cycles

/-- What a record says of a resource's parent. -/
def Event.recordsParent (c : Ulid) (parent : Option Ulid) : Event → Option Ulid
  | resourceCreated id parentId _ _ _ => if id = c then parentId else parent
  | resourceDeleted id => if id = c then none else parent
  | _ => parent

/-- The parent that the last create of a resource names. -/
def recordedParent (events : List Event) (c : Ulid) : Option Ulid :=
  events.foldl (fun parent ev => ev.recordsParent c parent) none

/-- A log that creates no resource it already has. -/
def CreatesAbsent (events : List Event) : Prop := Throughout (fun before ev =>
  ∀ id parentId name capacity bufferAfter, ev = .resourceCreated id parentId name capacity bufferAfter →
    (InMemoryStore.replayed before).getResource id = none) events

namespace InMemoryStore

variable {s : InMemoryStore} {events : List Event} {order : List Ulid}

/-- The parent relation of the index has no cycle. -/
def NoCycle (s : InMemoryStore) : Prop := Acyclic fun c p => s.getParent c = some p

theorem recordedParent_eq (events : List Event) (c : Ulid) :
    recordedParent events c = ((replayed events).getResource c).bind (·.parentId) := by
  induction events using List.reverseRecOn with
  | nil => rfl
  | append_singleton events ev ih =>
      have last : recordedParent (events ++ [ev]) c = ev.recordsParent c (recordedParent events c) := by
        rw [recordedParent, List.foldl_append]
        rfl
      have changed : ev.isChange → (ev.stepOn c ((replayed events).getResource c)).bind (·.parentId) =
          ((replayed events).getResource c).bind (·.parentId) := by
        intro change
        cases present : (replayed events).getResource c with
        | none =>
            rw [Event.stepOn_change change]
            rfl
        | some rs =>
            have step : ev.stepOn c (some rs) = some ((ev.changesOn c).foldl ResourceState.applySingle rs) := by
              rw [Event.stepOn_change change, Option.map_some]
            rw [step]
            exact Event.stepOn_parentId change step
      rw [last, replayed_concat, ih]
      cases ev with
      | resourceCreated id parentId name capacity bufferAfter =>
          simp only [Event.recordsParent, Event.stepOn]
          split <;> rfl
      | resourceDeleted id =>
          simp only [Event.recordsParent, Event.stepOn]
          split <;> rfl
      | resourceUpdated | ruleAdded | ruleUpdated | ruleRemoved | holdPlaced | holdReleased | bookingConfirmed
      | bookingCancelled | holdsCommitted => exact (changed rfl).symm

/-- Where no resource is created twice, the replayed views agree on the hierarchy. -/
theorem linked_of_absent (once : CreatesAbsent events) : (replayed events).Linked := by
  induction events using List.reverseRecOn with
  | nil => exact empty_linked
  | append_singleton events ev ih =>
      obtain ⟨before, fresh⟩ := throughout_concat.mp once
      rw [replayed_append]
      exact (ih before).replayEvent fresh

/-! ## The sweep -/

/-- A resource without its parent, if that is gone. -/
def mended (s : InMemoryStore) (rs : ResourceState) : ResourceState :=
  { rs with parentId := rs.parentId.filter s.containsResource }

theorem detachOrphan_getResource (id x : Ulid) :
    (s.detachOrphan id).getResource x = if x = id then (s.getResource id).map s.mended else s.getResource x := by
  unfold detachOrphan
  cases present : s.getResource id with
  | none =>
      simp only
      split
      · next same => rw [same, present, Option.map_none]
      · rfl
  | some rs =>
      have kept : s.mended rs = rs → s.getResource x = if x = id then some (s.mended rs) else s.getResource x := by
        intro same
        split
        · next own => rw [own, present, same]
        · rfl
      cases parent : rs.parentId with
      | none =>
          simp only [parent, Option.map_some]
          exact kept (by rw [mended, parent, Option.filter_none, ← parent])
      | some p =>
          simp only [parent, Option.map_some]
          cases inTable : s.containsResource p with
          | true => exact kept (by rw [mended, parent, Option.filter_some_pos inTable, ← parent])
          | false =>
              have gone : s.mended rs = { rs with parentId := none } := by
                rw [mended, parent, Option.filter_some_neg (by simp [inTable])]
              simp only [Bool.false_eq_true, ↓reduceIte, removeChild_getResource, detachParent_getResource, gone]
              by_cases own : x = id
              · subst own
                simp [getResource]
              · simp [getResource, AList.lookup_insert_ne, own]

theorem detachOrphan_contains (id : Ulid) : (s.detachOrphan id).containsResource = s.containsResource := by
  funext x
  have table := detachOrphan_getResource (s := s) id x
  change ((s.detachOrphan id).getResource x).isSome = (s.getResource x).isSome
  rw [table]
  split
  · next same => rw [same, Option.isSome_map]
  · rfl

theorem mended_mended (rs : ResourceState) : s.mended (s.mended rs) = s.mended rs := by
  unfold mended
  simp

/-- The sweep mends every resource it lists. -/
theorem sweep_getResource (x : Ulid) (order : List Ulid) : ∀ s : InMemoryStore,
    (order.foldl detachOrphan s).getResource x =
      if x ∈ order then (s.getResource x).map s.mended else s.getResource x := by
  induction order with
  | nil => exact fun _ => rfl
  | cons id rest ih =>
      intro s
      have same : (s.detachOrphan id).mended = s.mended := by
        funext rs
        rw [mended, mended, detachOrphan_contains]
      rw [List.foldl_cons, ih, same, detachOrphan_getResource]
      by_cases own : x = id
      · subst own
        have twice : s.mended ∘ s.mended = s.mended := funext mended_mended
        simp [Option.map_map, twice]
      · simp [own]

theorem Linked.detachOrphan (l : s.Linked) (id : Ulid) : (s.detachOrphan id).Linked := by
  have table := detachOrphan_getResource (s := s) id
  cases present : s.getResource id with
  | none =>
      have same : s.detachOrphan id = s := by simp only [InMemoryStore.detachOrphan, present]
      rw [same]
      exact l
  | some rs =>
      cases parent : rs.parentId with
      | none =>
          have same : s.detachOrphan id = s := by simp only [InMemoryStore.detachOrphan, present, parent]
          rw [same]
          exact l
      | some p =>
          cases inTable : s.containsResource p with
          | true =>
              have same : s.detachOrphan id = s := by
                simp only [InMemoryStore.detachOrphan, present, parent, inTable, ↓reduceIte]
              rw [same]
              exact l
          | false =>
              have under : s.getParent id = some p := by rw [l.parents, present]; exact parent
              have links : ∀ x, (s.detachOrphan id).getParent x = (if x = id then none else s.getParent x) ∧
                  (s.detachOrphan id).getChildren x =
                    if x = p then (s.getChildren x).filter (· ≠ id) else s.getChildren x := by
                intro x
                simp only [InMemoryStore.detachOrphan, present, parent, inTable, Bool.false_eq_true, ↓reduceIte,
                  removeChild_getParent, detachParent_getParent, removeChild_getChildren, detachParent_getChildren]
                exact ⟨rfl, rfl⟩
              rw [present, Option.map_some, mended, parent, Option.filter_some_neg (by simp [inTable])] at table
              constructor
              case named =>
                intro r other found
                rw [table] at found
                split at found
                · next same =>
                    cases found
                    exact (l.named id rs present).trans same.symm
                · exact l.named r other found
              case parents =>
                intro c
                rw [(links c).1, table, l.parents]
                split <;> rfl
              case children =>
                intro q c
                rw [(links q).2, (links c).1]
                by_cases own : c = id
                · subst own
                  split
                  · simp
                  · next apart => simp [l.children, under, Ne.symm apart]
                · rw [if_neg own, ← l.children q c]
                  split <;> simp [own]
              case childrenNodup =>
                intro q
                rw [(links q).2]
                split
                · exact (l.childrenNodup q).filter _
                · exact l.childrenNodup q

theorem Linked.sweep (order : List Ulid) : ∀ {s : InMemoryStore}, s.Linked →
    (order.foldl InMemoryStore.detachOrphan s).Linked := by
  induction order with
  | nil => exact fun l => l
  | cons id rest ih => exact fun l => ih (l.detachOrphan id)

/-- A start leaves every resource with its recorded parent, if that exists. -/
theorem rebuilt_getResource (lists : order.Perm (replayed events).resourceIds) (x : Ulid) :
    (rebuilt events order).getResource x = ((replayed events).getResource x).map (replayed events).mended := by
  rw [rebuilt, sweep_getResource]
  split
  · rfl
  · next unlisted =>
      rw [lists.mem_iff, Engine.mem_resourceIds, Option.not_isSome_iff_eq_none] at unlisted
      rw [unlisted]
      rfl

end InMemoryStore

/-! ## What a step does to the tree

An engine that starts on any log need not have an exact entity index, so the results about
healthy engines do not apply. But the checks of a create and a delete read the tree alone, and
nothing else that an operation does touches it.
-/

namespace Engine

variable {e e' : Engine}

/-- An engine whose writer neither stopped nor is about to fail. -/
structure Running (e : Engine) : Prop where
  running : e.failed = false
  noFault : e.flushFault = none

/-- The resources with their parents, and both indexes, as they were. -/
structure SameTree (s s' : InMemoryStore) : Prop where
  shape : ∀ x, (s'.getResource x).map (fun rs => (rs.id, rs.parentId)) = (s.getResource x).map fun rs => (rs.id, rs.parentId)
  links : ∀ x, s'.getParent x = s.getParent x ∧ s'.getChildren x = s.getChildren x

theorem SameTree.refl (s : InMemoryStore) : SameTree s s := ⟨fun _ => rfl, fun _ => ⟨rfl, rfl⟩⟩

/-- What an operation does to the tree and to the log. -/
inductive TreeStep (e : Engine) : Engine → Prop where
  | changed {e' : Engine} {records : List Event} : (∀ ev ∈ records, ev.isChange) → e'.log = e.log ++ records →
      SameTree e.store e'.store → TreeStep e e'
  | created {e' : Engine} {id : Ulid} {parentId : Option Ulid} {name : Option String} {capacity : UInt32}
      {bufferAfter : Option Ms} : e.store.getResource id = none →
      (∀ p, parentId = some p → p ≠ id ∧ (e.store.getResource p).isSome) →
      e'.log = e.log ++ [.resourceCreated id parentId name capacity bufferAfter] →
      e'.store = e.store.create id parentId name capacity bufferAfter → TreeStep e e'
  | deleted {e' : Engine} {id : Ulid} {rs : ResourceState} : e.store.getResource id = some rs →
      e.store.getChildren id = [] → e'.log = e.log ++ [.resourceDeleted id] →
      e'.store = e.store.delete rs id → TreeStep e e'

/-- Whatever the answer, the engine still runs and got here by such steps. -/
def Moved {ε α : Type} (e : Engine) (_ : Except ε α) (e' : Engine) : Prop :=
  e'.Running ∧ Relation.ReflTransGen (fun e e' => e'.Running ∧ TreeStep e e') e e'

section Operations

variable {ε : Type}

theorem Moved.here (running : e.Running) {α : Type} (result : Except ε α) : Moved e result e := ⟨running, .refl⟩

theorem moved_check {α : Type} (running : e.Running) {c : Except ε α} {f : α → ExceptT ε (StateM Engine) Unit}
    (passed : ∀ a, c = .ok a → Ends (f a) e (Moved e)) : Ends (liftM c >>= f) e (Moved e) :=
  Ends.check (fun _ _ => .here running _) passed

theorem moved_adapt {g : ε → EngineError} {x : ExceptT ε (StateM Engine) Unit} (moved : Ends x e (Moved e)) :
    Ends (ExceptT.adapt g x) e (Moved e) := Ends.adapt moved

theorem moved_persistAndApply (running : e.Running) {rid : Ulid} {ev : Event} (change : ev.isChange) :
    Ends (persistAndApply rid ev) e (Moved e) := by
  unfold Ends
  rw [exec_persistAndApply running.running running.noFault]
  have still : Running { e with store := e.store.replayOn rid ev, log := e.log ++ [ev] } := ⟨running.running, running.noFault⟩
  refine ⟨still, .single ⟨still, .changed (List.forall_mem_singleton.mpr change) rfl ?_⟩⟩
  exact ⟨InMemoryStore.replayOn_shape rid ev, InMemoryStore.replayOn_links rid ev⟩

theorem sameTree_changes (s : InMemoryStore) (changes : List Event) : SameTree s (s.replayChanges changes) where
  shape x := by
    rw [InMemoryStore.replayChanges_getResource, Option.map_map]
    refine congrArg (Option.map · (s.getResource x)) (funext fun rs => ?_)
    generalize changes.filter (·.resourceId? = some x) = own
    induction own generalizing rs with
    | nil => rfl
    | cons ev rest ih =>
        rw [Function.comp_apply, List.foldl_cons]
        refine (ih (rs.applySingle ev)).trans ?_
        rw [ResourceState.applySingle_id, ResourceState.applySingle_parentId]
  links x := ⟨InMemoryStore.replayChanges_getParent changes x s, InMemoryStore.replayChanges_getChildren changes x s⟩

/-- The tail of an allocation, behind the move of the reaper's watermark. -/
theorem moved_persistEarly (running : e.Running) {locked : List Ulid} {records : List Event}
    (changes : ∀ ev ∈ records, ev.isChange) {watched : Engine} (store : watched.store = e.store)
    (log : watched.log = e.log) (still : watched.failed = e.failed) (noFault : watched.flushFault = e.flushFault) :
    Ends (persistEarly locked records) watched (Moved e) := by
  unfold Ends
  rw [exec_persistEarly (still.trans running.running) (noFault.trans running.noFault), log, store]
  refine ⟨⟨still.trans running.running, noFault.trans running.noFault⟩,
    .single ⟨⟨still.trans running.running, noFault.trans running.noFault⟩, .changed changes rfl ?_⟩⟩
  simp only [foldl_applyChanges]
  exact sameTree_changes _ _

theorem moved_createResource (running : e.Running) (id : Ulid) (parentId : Option Ulid) (name : Option String)
    (capacity : UInt32) (bufferAfter : Option Ms) :
    Ends (createResource id parentId name capacity bufferAfter) e (Moved e) := by
  cases checked : e.checkCreate id parentId name capacity bufferAfter with
  | error error =>
      refine Ends.get (moved_check running fun _ passed => ?_)
      rw [checked] at passed
      cases passed
  | ok passed =>
      unfold Ends
      rw [exec_createResource running.running running.noFault checked]
      obtain ⟨_, absent, parent⟩ := checkCreate_ok checked
      exact ⟨⟨running.running, running.noFault⟩, .single ⟨⟨running.running, running.noFault⟩, .created absent parent rfl rfl⟩⟩

theorem moved_deleteResource (running : e.Running) (id : Ulid) : Ends (deleteResource id) e (Moved e) := by
  cases checked : e.checkDelete id with
  | error error =>
      refine Ends.get (moved_check running fun _ passed => ?_)
      rw [checked] at passed
      cases passed
  | ok rs =>
      unfold Ends
      rw [exec_deleteResource running.running running.noFault checked]
      obtain ⟨present, childless⟩ := checkDelete_ok checked
      exact ⟨⟨running.running, running.noFault⟩, .single ⟨⟨running.running, running.noFault⟩, .deleted present childless rfl rfl⟩⟩

theorem moved_addRule (running : e.Running) (id rid : Ulid) (span : Span) (blocking : Bool) :
    Ends (addRule id rid span blocking) e (Moved e) :=
  Ends.get (moved_check running fun _ _ => moved_persistAndApply running rfl)

theorem moved_removeHold (running : e.Running) (id : Ulid) : Ends (removeHold id) e (Moved e) :=
  Ends.get (moved_check running fun _ _ => moved_persistAndApply running rfl)

theorem moved_commitHolds (running : e.Running) (commits : List (Ulid × Ulid × Option String)) (limit : Nat) :
    Ends (commitHoldsOffering commits limit) e (Moved e) := by
  unfold commitHoldsOffering
  split
  · exact .here running _
  · exact Ends.get (moved_check running fun _ _ => Ends.adapt
      (moved_persistEarly running (List.forall_mem_singleton.mpr rfl) rfl rfl rfl rfl))

theorem moved_batchConfirmBookings (running : e.Running) (bookings : List (Ulid × Ulid × Span × Option String)) :
    Ends (batchConfirmBookings bookings) e (Moved e) := by
  unfold batchConfirmBookings
  split
  · exact .here running _
  · exact Ends.get (moved_check running fun _ _ =>
      moved_persistEarly running (List.forall_mem_map.mpr fun _ _ => rfl) rfl rfl rfl rfl)

theorem moved_batchPlaceHolds (running : e.Running) (holds : List (Ulid × Ulid × Span × Ms)) :
    Ends (batchPlaceHolds holds) e (Moved e) := by
  refine Ends.get (moved_check running fun clamped _ => ?_)
  split
  · exact .here running _
  · exact Ends.get (moved_check running fun _ _ => Ends.step rfl
      (moved_persistEarly running (List.forall_mem_map.mpr fun _ _ => rfl) rfl rfl rfl rfl))

/-- Every operation goes by such steps, whatever state it finds. -/
theorem run_moved (o : Op) (running : e.Running) : Ends o.run e (Moved e) := by
  cases o with
  | createResource => exact moved_createResource running ..
  | batchCreateResources resources =>
      refine Ends.check (fun _ _ => .here running _) fun _ _ => Ends.forM (I := Running) (fun r _ e running => ?_) e running
      exact moved_createResource running ..
  | deleteResource => exact moved_deleteResource running _
  | updateResource =>
      exact moved_check running fun _ _ => Ends.get (moved_check running fun _ _ => moved_persistAndApply running rfl)
  | addRule => exact moved_addRule running ..
  | batchAddRules rules =>
      refine Ends.check (fun _ _ => .here running _) fun _ _ => Ends.forM (I := Running) (fun r _ e running => ?_) e running
      exact moved_addRule running ..
  | updateRule => exact Ends.get (moved_check running fun _ _ => moved_persistAndApply running rfl)
  | removeRule => exact Ends.get (moved_check running fun _ _ => moved_persistAndApply running rfl)
  | placeHold =>
      exact moved_adapt (Ends.get (moved_check running fun _ _ => Ends.step rfl (Ends.adapt
        (moved_persistEarly running (List.forall_mem_singleton.mpr rfl) rfl rfl rfl rfl))))
  | batchPlaceHolds => exact moved_batchPlaceHolds running _
  | releaseHold => exact moved_removeHold running _
  | expireHold => exact moved_removeHold running _
  | commitHolds => exact moved_adapt (moved_commitHolds running _ _)
  | confirmBooking =>
      exact moved_adapt (Ends.get (moved_check running fun _ _ => Ends.adapt
        (moved_persistEarly running (List.forall_mem_singleton.mpr rfl) rfl rfl rfl rfl)))
  | batchConfirmBookings => exact moved_batchConfirmBookings running _
  | cancelBooking => exact Ends.get (moved_check running fun _ _ => moved_persistAndApply running rfl)

end Operations

end Engine

/-! ## The tree in memory and the tree in the log -/

namespace InMemoryStore

variable {s s' : InMemoryStore}

/-- Whether a resource exists, and its parent. -/
def parentEntry (s : InMemoryStore) (c : Ulid) : Option (Option Ulid) := (s.getResource c).map (·.parentId)

/-- The resources have their parents in the table, and both indexes agree with it. -/
structure Rooted (s : InMemoryStore) : Prop where
  linked : s.Linked
  parentExists : ∀ c p, s.getParent c = some p → (s.parentEntry p).isSome

theorem Linked.getParent_eq (l : s.Linked) (c : Ulid) : s.getParent c = (s.parentEntry c).join := by
  rw [l.parents, parentEntry]
  cases s.getResource c <;> rfl

theorem isSome_parentEntry (c : Ulid) : (s.parentEntry c).isSome = (s.getResource c).isSome := Option.isSome_map ..

theorem create_parentEntry (id : Ulid) (parentId : Option Ulid) (name : Option String) (capacity : UInt32)
    (bufferAfter : Option Ms) (c : Ulid) : (s.create id parentId name capacity bufferAfter).parentEntry c =
      if c = id then some parentId else s.parentEntry c := by
  rw [parentEntry, create_getResource]
  split <;> rfl

theorem delete_parentEntry (rs : ResourceState) (id c : Ulid) :
    (s.delete rs id).parentEntry c = if c = id then none else s.parentEntry c := by
  rw [parentEntry, delete_getResource]
  split <;> rfl

theorem stepOn_parentEntry (ev : Event) (change : ev.isChange) (c : Ulid) (entry : Option ResourceState) :
    (ev.stepOn c entry).map (·.parentId) = entry.map (·.parentId) := by
  rw [Event.stepOn_change change, Option.map_map]
  refine congrArg (Option.map · entry) (funext fun rs => ?_)
  have step : ev.stepOn c (some rs) = some ((ev.changesOn c).foldl ResourceState.applySingle rs) := by
    rw [Event.stepOn_change change, Option.map_some]
  exact Event.stepOn_parentId change step

theorem replayed_parentEntry {events records : List Event} (changes : ∀ ev ∈ records, ev.isChange) (c : Ulid) :
    (replayed (events ++ records)).parentEntry c = (replayed events).parentEntry c := by
  rw [parentEntry, replayed_append, foldl_replayEvent_getResource c records (replayed_named events), parentEntry]
  generalize (replayed events).getResource c = entry
  induction records generalizing entry with
  | nil => rfl
  | cons ev rest ih =>
      obtain ⟨first, others⟩ := List.forall_mem_cons.mp changes
      rw [List.foldl_cons, ih others, stepOn_parentEntry ev first]

theorem replayed_created (events : List Event) (id : Ulid) (parentId : Option Ulid) (name : Option String)
    (capacity : UInt32) (bufferAfter : Option Ms) (c : Ulid) :
    (replayed (events ++ [.resourceCreated id parentId name capacity bufferAfter])).parentEntry c =
      if c = id then some parentId else (replayed events).parentEntry c := by
  rw [parentEntry, replayed_concat]
  simp only [Event.stepOn, eq_comm]
  split <;> rfl

theorem replayed_deleted (events : List Event) (id c : Ulid) :
    (replayed (events ++ [.resourceDeleted id])).parentEntry c =
      if c = id then none else (replayed events).parentEntry c := by
  rw [parentEntry, replayed_concat]
  simp only [Event.stepOn, eq_comm]
  split <;> rfl

theorem Rooted.same (rooted : s.Rooted) (tree : Engine.SameTree s s') : s'.Rooted := by
  refine ⟨rooted.linked.of_shape tree.shape tree.links, fun c p under => ?_⟩
  rw [(tree.links c).1] at under
  have there := rooted.parentExists c p under
  have same := congrArg Option.isSome (tree.shape p)
  rw [Option.isSome_map, Option.isSome_map] at same
  rw [isSome_parentEntry] at there ⊢
  rw [same, there]

/-- The parent index after a create. -/
theorem Rooted.create_links (rooted : s.Rooted) {id : Ulid} (absent : s.getResource id = none) (parentId : Option Ulid)
    (name : Option String) (capacity : UInt32) (bufferAfter : Option Ms) (c : Ulid) :
    (s.create id parentId name capacity bufferAfter).getParent c = if c = id then parentId else s.getParent c := by
  have root : s.getParent id = none := by rw [rooted.linked.parents, absent]; rfl
  rw [create_getParent]
  split
  · next same => rw [same, root, Option.or_none]
  · rfl

theorem Rooted.create (rooted : s.Rooted) {id : Ulid} {parentId : Option Ulid} (absent : s.getResource id = none)
    (parent : ∀ p, parentId = some p → p ≠ id ∧ (s.getResource p).isSome) (name : Option String) (capacity : UInt32)
    (bufferAfter : Option Ms) : (s.create id parentId name capacity bufferAfter).Rooted := by
  refine ⟨rooted.linked.create absent parentId name capacity bufferAfter, fun c p under => ?_⟩
  rw [rooted.create_links absent] at under
  rw [create_parentEntry]
  split
  · rfl
  · split at under
    · rw [isSome_parentEntry]
      exact (parent p under).2
    · exact rooted.parentExists c p under

theorem Linked.delete (l : s.Linked) {id : Ulid} {rs : ResourceState} (present : s.getResource id = some rs) :
    (s.delete rs id).Linked := by
  refine (l.resourceDeleted id).of_shape (fun x => ?_) fun x => ?_
  · rw [delete_getResource, replayEvent_getResource l.named]
    simp only [Event.stepOn, eq_comm]
  · unfold InMemoryStore.delete unlink InMemoryStore.replayEvent
    cases parent : rs.parentId <;> simp [present, parent]

theorem Rooted.delete (rooted : s.Rooted) {id : Ulid} {rs : ResourceState} (present : s.getResource id = some rs)
    (childless : s.getChildren id = []) : (s.delete rs id).Rooted := by
  refine ⟨rooted.linked.delete present, fun c p under => ?_⟩
  rw [delete_getParent] at under
  split at under
  · cases under
  · have apart : p ≠ id := by
      rintro rfl
      have inside := (rooted.linked.children p c).mpr under
      rw [childless] at inside
      cases inside
    rw [delete_parentEntry, if_neg apart]
    exact rooted.parentExists c p under

/-- Nothing is above a new resource but its parent, and nothing below it. -/
theorem Rooted.noCycle_create (rooted : s.Rooted) {id : Ulid} {parentId : Option Ulid} (absent : s.getResource id = none)
    (parent : ∀ p, parentId = some p → p ≠ id ∧ (s.getResource p).isSome) (name : Option String) (capacity : UInt32)
    (bufferAfter : Option Ms) : (s.create id parentId name capacity bufferAfter).NoCycle ↔ s.NoCycle := by
  have root : s.getParent id = none := by rw [rooted.linked.parents, absent]; rfl
  have links := rooted.create_links absent parentId name capacity bufferAfter
  apply acyclic_iff
  · rintro a b edge ⟨z, enters⟩
    rw [links] at edge enters
    have apart : a ≠ id := by
      rintro rfl
      split at enters
      · exact (parent a enters).1 rfl
      · have there := rooted.parentExists z a enters
        rw [isSome_parentEntry, absent] at there
        cases there
    rwa [if_neg apart] at edge
  · intro a b edge _
    have apart : a ≠ id := by
      rintro rfl
      rw [root] at edge
      cases edge
    rw [links, if_neg apart]
    exact edge

/-- A resource without children is on no cycle. -/
theorem Rooted.noCycle_delete (rooted : s.Rooted) {id : Ulid} (rs : ResourceState) (childless : s.getChildren id = []) :
    (s.delete rs id).NoCycle ↔ s.NoCycle := by
  apply acyclic_iff
  · intro a b edge _
    rw [delete_getParent] at edge
    split at edge
    · cases edge
    · exact edge
  · rintro a b edge ⟨z, enters⟩
    have apart : a ≠ id := by
      rintro rfl
      have inside := (rooted.linked.children a z).mpr enters
      rw [childless] at inside
      cases inside
    rw [delete_getParent, if_neg apart]
    exact edge

end InMemoryStore

namespace Engine

variable {e e' e₀ : Engine}

open InMemoryStore

/-- What a start leaves and steps keep: in memory the tree of the log, but for roots whose recorded
    parent was gone. -/
structure Mended (e : Engine) : Prop where
  running : e.Running
  rooted : e.store.Rooted
  recorded : (replayed e.log).Linked
  agrees : ∀ c, Option.Rel (fun recorded live => live = recorded ∨ live = none)
    ((replayed e.log).parentEntry c) (e.store.parentEntry c)

theorem Mended.absent (mended : e.Mended) {id : Ulid} (absent : e.store.getResource id = none) :
    (replayed e.log).getResource id = none := by
  have related := mended.agrees id
  rw [parentEntry, parentEntry, absent] at related
  exact Option.map_eq_none_iff.mp (rel_none related)

/-- One step of an operation keeps this, and neither closes nor opens a cycle. -/
theorem Mended.stepped (mended : e.Mended) (running : e'.Running) (step : TreeStep e e') :
    e'.Mended ∧ (e'.store.NoCycle ↔ e.store.NoCycle) := by
  cases step with
  | @changed records changes log same =>
      refine ⟨⟨running, mended.rooted.same same, ?_, fun c => ?_⟩, ?_⟩
      · rw [log, replayed_append]
        exact mended.recorded.foldl_changes changes
      · have entry := congrArg (Option.map Prod.snd) (same.shape c)
        rw [Option.map_map, Option.map_map] at entry
        have kept : e'.store.parentEntry c = e.store.parentEntry c := entry
        rw [log, replayed_parentEntry changes, kept]
        exact mended.agrees c
      · unfold NoCycle
        simp only [(same.links _).1]
  | @created id parentId name capacity bufferAfter absent parent log store =>
      have gone := mended.absent absent
      refine ⟨⟨running, ?_, ?_, fun c => ?_⟩, ?_⟩
      · rw [store]
        exact mended.rooted.create absent parent name capacity bufferAfter
      · rw [log, replayed_append]
        exact mended.recorded.create gone parentId name capacity bufferAfter
      · rw [log, store, create_parentEntry, replayed_created]
        split
        · exact .some (.inl rfl)
        · exact mended.agrees c
      · rw [store]
        exact mended.rooted.noCycle_create absent parent name capacity bufferAfter
  | @deleted id rs present childless log store =>
      refine ⟨⟨running, ?_, ?_, fun c => ?_⟩, ?_⟩
      · rw [store]
        exact mended.rooted.delete present childless
      · rw [log, replayed_append]
        exact mended.recorded.resourceDeleted id
      · rw [log, store, delete_parentEntry, replayed_deleted]
        split
        · exact .none
        · exact mended.agrees c
      · rw [store]
        exact mended.rooted.noCycle_delete rs childless

theorem SameTree.trans {s s' s'' : InMemoryStore} (first : SameTree s s') (second : SameTree s' s'') : SameTree s s'' where
  shape x := (second.shape x).trans (first.shape x)
  links x := ⟨(second.links x).1.trans (first.links x).1, (second.links x).2.trans (first.links x).2⟩

theorem gc_sameTree (e : Engine) (now retentionMs : Ms) : SameTree e.store (e.gcPastIntervals now retentionMs).store := by
  unfold gcPastIntervals
  generalize e.store.resourceIds = rids
  generalize e.store = s
  induction rids generalizing s with
  | nil => exact .refl s
  | cons rid rest ih =>
      have first : SameTree s (gcResource now (satSub now retentionMs) s rid) := by
        refine ⟨fun x => ?_, fun x => ⟨gcResource_getParent x, gcResource_getChildren x⟩⟩
        rw [gcResource_getResource]
        split
        · next same =>
            rw [same, Option.map_map]
            rfl
        · rfl
      exact first.trans (ih _)

/-- A step of a run keeps this, and neither closes nor opens a cycle. -/
theorem Mended.next (mended : e.Mended) {m : Move} (possible : e.Possible m) :
    (e.next m).Mended ∧ ((e.next m).store.NoCycle ↔ e.store.NoCycle) := by
  cases m with
  | tick ms => exact ⟨⟨⟨mended.running.running, mended.running.noFault⟩, mended.rooted, mended.recorded, mended.agrees⟩, Iff.rfl⟩
  | op o =>
      obtain ⟨_, steps⟩ : Moved e (exec o.run e).1 (exec o.run e).2 := run_moved o mended.running
      change (exec o.run e).2.Mended ∧ ((exec o.run e).2.store.NoCycle ↔ e.store.NoCycle)
      generalize (exec o.run e).2 = after at steps
      induction steps with
      | refl => exact ⟨mended, Iff.rfl⟩
      | tail _ step ih =>
          have last := ih.1.stepped step.1 step.2
          exact ⟨last.1, last.2.trans ih.2⟩
  | gc now retentionMs =>
      have step : TreeStep e (e.next (.gc now retentionMs)) :=
        .changed (fun ev inside => (List.not_mem_nil inside).elim) (List.append_nil _).symm (gc_sameTree e now retentionMs)
      exact mended.stepped ⟨mended.running.running, mended.running.noFault⟩ step
  | compact order =>
      change (e.compactWal order).Mended ∧ ((e.compactWal order).store.NoCycle ↔ e.store.NoCycle)
      obtain ⟨nodup, table⟩ := snapshots_of_table mended.rooted.linked.named possible
      rw [compactWal_eq mended.running.running]
      have restores := Compaction.replayed_snapshotEvents nodup table
      refine ⟨⟨⟨mended.running.running, mended.running.noFault⟩, mended.rooted, restores.linked, fun c => ?_⟩, Iff.rfl⟩
      have related := restores.table c
      change Option.Rel _ (parentEntry _ c) ((e.store.getResource c).map (·.parentId))
      rw [parentEntry]
      cases present : e.store.getResource c with
      | none =>
          rw [present] at related
          rw [rel_none related]
          exact .none
      | some live =>
          rw [present] at related
          obtain ⟨rs, there, same⟩ := rel_some related
          rw [there]
          exact .some (.inl same.parentId.symm)

theorem opened_mended {stored : List Event} {order : List Ulid} (once : CreatesAbsent stored) (clock ttl : Ms)
    (lists : order.Perm (replayed stored).resourceIds) : (opened clock ttl stored order).Mended := by
  have table := rebuilt_getResource lists
  have linked := linked_of_absent once
  have swept : (rebuilt stored order).Linked := linked.sweep order
  refine ⟨⟨rfl, rfl⟩, ⟨swept, fun c p under => ?_⟩, linked, fun c => ?_⟩
  · have under := (swept.parents c).symm.trans under
    rw [table] at under
    obtain ⟨rs, found, parent⟩ := Option.bind_eq_some_iff.mp under
    obtain ⟨old, _, rfl⟩ := Option.map_eq_some_iff.mp found
    have there : ((replayed stored).getResource p).isSome := (Option.filter_eq_some_iff.mp parent).2
    rw [isSome_parentEntry]
    change ((rebuilt stored order).getResource p).isSome
    rwa [table, Option.isSome_map]
  · change Option.Rel _ (((replayed stored).getResource c).map (·.parentId))
      (((rebuilt stored order).getResource c).map (·.parentId))
    rw [table]
    cases (replayed stored).getResource c with
    | none => exact .none
    | some rs =>
        refine .some ?_
        change rs.parentId.filter _ = rs.parentId ∨ rs.parentId.filter _ = none
        cases rs.parentId with
        | none => exact .inl rfl
        | some p =>
            rw [Option.filter_some]
            split
            · exact .inl rfl
            · exact .inr rfl

/-- The engines that operations, collections and compactions lead to from an opened one. -/
def Resumed (e₀ : Engine) : Engine → Prop :=
  Relation.ReflTransGen (fun e e' => ∃ m, e.Possible m ∧ e' = e.next m) e₀

theorem Resumed.mended (run : e₀.Resumed e) (mended : e₀.Mended) :
    e.Mended ∧ (e.store.NoCycle ↔ e₀.store.NoCycle) := by
  induction run with
  | refl => exact ⟨mended, Iff.rfl⟩
  | tail _ step ih =>
      obtain ⟨m, possible, rfl⟩ := step
      have last := ih.1.next possible
      exact ⟨last.1, last.2.trans ih.2⟩

/-- Another start finds each resource under its recorded parent, if memory has that. -/
theorem Mended.restarted (mended : e.Mended) {order : List Ulid} (lists : order.Perm (replayed e.log).resourceIds) (c : Ulid) :
    (rebuilt e.log order).getParent c = (recordedParent e.log c).filter e.store.containsResource := by
  have contains : (replayed e.log).containsResource = e.store.containsResource := by
    funext p
    have related := mended.agrees p
    change ((replayed e.log).getResource p).isSome = (e.store.getResource p).isSome
    rw [← isSome_parentEntry, ← isSome_parentEntry]
    cases live : e.store.parentEntry p with
    | none =>
        rw [live] at related
        rw [rel_none related]
    | some entry =>
        rw [live] at related
        obtain ⟨recorded, there, _⟩ := rel_some related
        rw [there]
        rfl
  have parent : (rebuilt e.log order).getParent c = ((rebuilt e.log order).getResource c).bind (·.parentId) :=
    (mended.recorded.sweep order).parents c
  rw [parent, rebuilt_getResource lists, recordedParent_eq, ← contains]
  cases (replayed e.log).getResource c <;> rfl

/-- In memory a resource is under its recorded parent, which then exists, or it is a root. -/
theorem Mended.live (mended : e.Mended) (c : Ulid) :
    e.store.getParent c = none ∨ e.store.getParent c = (recordedParent e.log c).filter e.store.containsResource := by
  have related := mended.agrees c
  have recorded : recordedParent e.log c = ((replayed e.log).parentEntry c).join := by
    rw [recordedParent_eq, parentEntry]
    cases (replayed e.log).getResource c <;> rfl
  rw [recorded, mended.rooted.linked.getParent_eq]
  cases live : e.store.parentEntry c with
  | none => exact .inl rfl
  | some entry =>
      rw [live] at related
      obtain ⟨old, there, kept | gone⟩ := rel_some related
      · subst kept
        rw [there]
        cases parent : entry with
        | none => exact .inl rfl
        | some p =>
            have under : e.store.getParent c = some p := by rw [mended.rooted.linked.getParent_eq, live, parent]; rfl
            have inTable := mended.rooted.parentExists c p under
            rw [isSome_parentEntry] at inTable
            have contained : e.store.containsResource p = true := inTable
            exact .inr (Option.filter_some_pos contained).symm
      · exact .inl (by rw [gone]; rfl)

/-- The repair survives the next restart: whatever was acknowledged since, the parents another
    start finds are those in memory, without a cycle, if and only if the first start left none and
    no root in memory is recorded under a parent that exists. -/
theorem repair_survives_iff {stored : List Event} (once : CreatesAbsent stored) (clock ttl : Ms) {order order' : List Ulid}
    (lists : order.Perm (replayed stored).resourceIds) {e : Engine} (run : (opened clock ttl stored order).Resumed e)
    (lists' : order'.Perm (replayed e.log).resourceIds) :
    ((∀ c, (rebuilt e.log order').getParent c = e.store.getParent c) ∧ (rebuilt e.log order').NoCycle) ↔
      (rebuilt stored order).NoCycle ∧
        ∀ c p, e.store.getParent c = none → recordedParent e.log c = some p → e.store.getResource p = none := by
  obtain ⟨mended, cycles⟩ := run.mended (opened_mended once clock ttl lists)
  have start : (opened clock ttl stored order).store = rebuilt stored order := rfl
  rw [start] at cycles
  have restarted := fun c => mended.restarted lists' c
  have same : (∀ c, (rebuilt e.log order').getParent c = e.store.getParent c) ↔
      ∀ c p, e.store.getParent c = none → recordedParent e.log c = some p → e.store.getResource p = none := by
    constructor
    · intro equal c p root recorded
      have after := (restarted c).symm.trans ((equal c).trans root)
      rw [recorded, Option.filter_some] at after
      rw [← Option.not_isSome_iff_eq_none]
      intro inTable
      have contained : e.store.containsResource p = true := inTable
      rw [if_pos contained] at after
      cases after
    · intro unused c
      rw [restarted]
      rcases mended.live c with root | under
      · rw [root]
        cases recorded : recordedParent e.log c with
        | none => rfl
        | some p =>
            have gone : e.store.containsResource p = false := by
              change (e.store.getResource p).isSome = false
              rw [unused c p root recorded]
              rfl
            exact Option.filter_some_neg (by simp [gone])
      · exact under.symm
  rw [same, and_comm, ← cycles]
  refine and_congr_left fun unused => ?_
  unfold NoCycle
  simp only [same.mpr unused]

/-- A child created under a parent that was deleted in the meantime. -/
def orphaned : List Event :=
  [.resourceCreated 1 none none 1 none, .resourceDeleted 1, .resourceCreated 2 (some 1) none 1 none]

theorem orphaned_creates_absent : CreatesAbsent orphaned := by
  refine throughout_cons.mpr ⟨?_, throughout_cons.mpr ⟨?_, throughout_singleton.mpr ?_⟩⟩
  · rintro id parentId name capacity bufferAfter ⟨⟩
    rfl
  · rintro id parentId name capacity bufferAfter ⟨⟩
  · rintro id parentId name capacity bufferAfter ⟨⟩
    decide +kernel

/-- The child, a root after the first start, gets a child of its own. -/
def grown : Engine := (opened 0 1000 orphaned [2]).next (.op (.createResource 3 (some 2) none 1 none))

theorem grown_log : grown.log = orphaned ++ [.resourceCreated 3 (some 2) none 1 none] := by decide +kernel

theorem grown_resumed : (opened 0 1000 orphaned [2]).Resumed grown :=
  .single ⟨.op (.createResource 3 (some 2) none 1 none), trivial, rfl⟩

theorem grown_repair_survives : (∀ c, (rebuilt grown.log [2, 3]).getParent c = grown.store.getParent c) ∧
    (rebuilt grown.log [2, 3]).NoCycle := by
  refine (repair_survives_iff orphaned_creates_absent 0 1000 (by decide +kernel) grown_resumed (by decide +kernel)).mpr
    ⟨?_, ?_⟩
  · rintro c cycle
    obtain ⟨z, enters⟩ := entered_of_path cycle
    have nobody : (rebuilt orphaned [2]).getParent z = none := rfl
    rw [nobody] at enters
    cases enters
  · intro c p root recorded
    rw [grown_log] at recorded
    by_cases third : c = 3
    · have under : grown.store.getParent 3 = some 2 := by decide +kernel
      rw [third, under] at root
      cases root
    · have lost : p = 1 := by
        clear root
        by_cases second : c = 2 <;> simp_all [recordedParent, Event.recordsParent, orphaned, eq_comm]
      rw [lost]
      decide +kernel

/-- The lost parent's id, used again below the child. -/
def reused : Engine := (opened 0 1000 orphaned [2]).next (.op (.createResource 1 (some 2) none 1 none))

/-- The next start puts the child under it, and the two are each above the other. -/
theorem reused_closes_cycle : CreatesAbsent orphaned ∧ (opened 0 1000 orphaned [2]).Resumed reused ∧
    reused.store.getParent 2 = none ∧ (rebuilt reused.log [1, 2]).getParent 2 = some 1 ∧
    ¬ (rebuilt reused.log [1, 2]).NoCycle := by
  refine ⟨orphaned_creates_absent, .single ⟨.op (.createResource 1 (some 2) none 1 none), trivial, rfl⟩, ?_, ?_, ?_⟩
  · decide +kernel
  · decide +kernel
  · intro acyclic
    have up : (rebuilt reused.log [1, 2]).getParent 1 = some 2 := by decide +kernel
    have down : (rebuilt reused.log [1, 2]).getParent 2 = some 1 := by decide +kernel
    exact acyclic 1 (.tail (.single up) down)

end Engine

end Deltat
