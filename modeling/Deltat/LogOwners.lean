import Deltat.Lib.History
import Deltat.ReplayRebuilds

/-! # Whom the log leaves an entity with

Collection drops intervals from memory and writes no record, so the log goes on saying where
they are. What it says of an entity is read off the last record about it; a log whose records
only add entities that it leaves with nobody replays to resources that share no id.
-/

namespace Deltat

open Lib History

namespace Event

/-- Where a change leaves an entity. -/
def changesOwner (x : Ulid) (owner : Option Ulid) (change : Event) : Option Ulid :=
  if change.adds.map (·.id) = some x then change.resourceId?
  else if change.removes = some x then none
  else owner

/-- Where a record leaves an entity. A deleted resource takes its entities along. -/
def ownerAfter (x : Ulid) (owner : Option Ulid) : Event → Option Ulid
  | resourceDeleted id => if owner = some id then none else owner
  | ev => ev.perResource.foldl (changesOwner x) owner

end Event

/-- The resource that a log leaves an entity on. -/
def lastOwner (events : List Event) (x : Ulid) : Option Ulid := events.foldl (fun owner ev => ev.ownerAfter x owner) none

/-- Every id that the record adds is left with nobody by the records before it, or is replaced
    by the record itself. -/
def Event.FreshAfter (before : List Event) (ev : Event) : Prop :=
  ∀ change ∈ ev.perResource, ∀ i, change.adds = some i → change.removes = some i.id ∨ lastOwner before i.id = none

/-- Whether the record, if it deletes a resource, deletes one that the records before it leave
    without entities. -/
def Event.LeavesNobody (before : List Event) (ev : Event) : Prop :=
  ∀ id, ev = .resourceDeleted id → ∀ x, lastOwner before x ≠ some id

/-! ## Owners -/

section Owners

variable {events records changes : List Event} {x : Ulid} {owner : Option Ulid}

theorem Event.ownerAfter_change {ev : Event} (change : ev.isChange) (x : Ulid) (owner : Option Ulid) :
    ev.ownerAfter x owner = ev.perResource.foldl (changesOwner x) owner := by
  cases ev <;> first | rfl | cases change

theorem lastOwner_concat (events : List Event) (ev : Event) (x : Ulid) :
    lastOwner (events ++ [ev]) x = ev.ownerAfter x (lastOwner events x) := by
  rw [lastOwner, List.foldl_append]
  rfl

theorem Event.changesOwner_untouched {change : Event} (untouched : x ∉ change.touches) :
    change.changesOwner x owner = owner := by
  rw [Event.mem_touches, not_or] at untouched
  rw [Event.changesOwner, if_neg untouched.2, if_neg untouched.1]

/-- Independent changes can be gone through in any order. -/
theorem foldl_changesOwner_perm {changes' : List Event} (perm : changes.Perm changes')
    (apart : changes.Pairwise Event.Independent) (x : Ulid) (owner : Option Ulid) :
    changes.foldl (Event.changesOwner x) owner = changes'.foldl (Event.changesOwner x) owner := by
  refine perm.foldl_eq' (fun a inA b inB owner => ?_) owner
  by_cases same : a = b
  · rw [same]
  · have independent := apart.forall inA inB same
    by_cases touched : x ∈ a.touches
    · have other : x ∉ b.touches := independent x touched
      rw [Event.changesOwner_untouched other, Event.changesOwner_untouched other]
    · rw [Event.changesOwner_untouched touched, Event.changesOwner_untouched touched]

end Owners

/-! ## The records of a log that an engine wrote -/

/-- When a change goes with a table: its resource exists and carries what the change removes. -/
structure Event.Located (change : Event) (s : InMemoryStore) (r : Ulid) : Prop where
  routed : change.resourceId? = some r
  carries : ∃ rs, s.getResource r = some rs ∧ ∀ x, change.removes = some x → x ∈ rs.intervals.map (·.id)
  admitted : ∀ i, change.adds = some i → i.Admitted
  fields : ∀ rs : ResourceState, rs.WellFormed → (change.setFields rs).WellFormed

/-- When a record goes with the table that the records before it replay to. -/
inductive Event.Stands (s : InMemoryStore) : Event → Prop where
  | created {id : Ulid} {parentId : Option Ulid} {name : Option String} {capacity : UInt32} {bufferAfter : Option Ms} :
      s.getResource id = none → (ResourceState.new id parentId name capacity bufferAfter).WellFormed →
      Stands s (.resourceCreated id parentId name capacity bufferAfter)
  | deleted (id : Ulid) : Stands s (.resourceDeleted id)
  | changed {ev : Event} : ev.isChange → (∀ change ∈ ev.perResource, ∃ r, change.Located s r) →
      ev.perResource.Pairwise Event.Independent → Stands s ev

/-- A log each record of which goes with the table before it. -/
def Composed (events : List Event) : Prop := Throughout (fun before ev => ev.Stands (.replayed before)) events

/-- A log each record of which adds only what the records before it leave with nobody. -/
def FreshIds (events : List Event) : Prop := Throughout (fun before ev => ev.FreshAfter before) events

namespace InMemoryStore

/-- A store with the table that a log replays to, and with the owners the log names. -/
structure Accounts (s : InMemoryStore) (events : List Event) : Prop where
  indexed : s.Indexed
  table : ∀ r, s.getResource r = (replayed events).getResource r
  owners : ∀ x, s.getResourceForEntity x = lastOwner events x

section Accounts

variable {s : InMemoryStore} {events : List Event} {ev : Event}

theorem replayed_concat (events : List Event) (ev : Event) (r : Ulid) :
    (replayed (events ++ [ev])).getResource r = ev.stepOn r ((replayed events).getResource r) := by
  rw [replayed_append, List.foldl_cons, List.foldl_nil, replayEvent_getResource (replayed_named events)]

theorem replayChanges_owner {changes : List Event} (x : Ulid) : ∀ {s : InMemoryStore}, s.AllApply changes →
    (s.replayChanges changes).getResourceForEntity x = changes.foldl (Event.changesOwner x) (s.getResourceForEntity x) := by
  induction changes with
  | nil => exact fun _ => rfl
  | cons change rest ih =>
      intro s all
      obtain ⟨r, applies, later⟩ := all.cons
      obtain ⟨rs, present⟩ := Option.isSome_iff_exists.mp applies.present
      have first := ih later
      rw [replayChange_getResourceForEntity applies.routed present, ← applies.routed] at first
      exact first

theorem empty_accounts : empty.Accounts [] := ⟨empty_indexed, fun _ => rfl, fun _ => rfl⟩

/-- A record that goes with the table and adds fresh ids applies to the accounts. -/
theorem Accounts.allApply (accounts : s.Accounts events)
    (located : ∀ change ∈ ev.perResource, ∃ r, change.Located (replayed events) r)
    (apart : ev.perResource.Pairwise Event.Independent) (fresh : ev.FreshAfter events) : s.AllApply ev.perResource where
  applies change step := by
    obtain ⟨r, at'⟩ := located change step
    obtain ⟨rs, present, carries⟩ := at'.carries
    rw [← accounts.table] at present
    refine ⟨r, at'.routed, by rw [present]; rfl, fun x removed => ?_, at'.admitted, fun i added => ?_, at'.fields⟩
    · exact (accounts.indexed.entities x r).mpr ⟨rs, present, carries x removed⟩
    · rw [accounts.owners]
      exact (fresh change step i added).symm
  apart := apart

theorem Accounts.changed (accounts : s.Accounts events) (change : ev.isChange) (all : s.AllApply ev.perResource) :
    (s.replayChanges ev.perResource).Accounts (events ++ [ev]) where
  indexed := accounts.indexed.replayChanges all
  table r := by
    rw [replayed_concat, replayChanges_getResource, Event.stepOn_change change, accounts.table]
    rfl
  owners x := by
    rw [replayChanges_owner x all, lastOwner_concat, Event.ownerAfter_change change, accounts.owners]

theorem Accounts.created (accounts : s.Accounts events) {id : Ulid} {parentId : Option Ulid} {name : Option String}
    {capacity : UInt32} {bufferAfter : Option Ms} (absent : (replayed events).getResource id = none)
    (wf : (ResourceState.new id parentId name capacity bufferAfter).WellFormed) :
    (s.create id parentId name capacity bufferAfter).Accounts
      (events ++ [.resourceCreated id parentId name capacity bufferAfter]) where
  indexed := accounts.indexed.create wf ((accounts.table id).trans absent)
  table r := by
    rw [replayed_concat, create_getResource, accounts.table]
    simp only [Event.stepOn, eq_comm]
  owners x := by
    rw [create_getResourceForEntity, lastOwner_concat, accounts.owners]
    rfl

theorem Accounts.deleted (accounts : s.Accounts events) (id : Ulid) : ∃ s', Accounts s' (events ++ [.resourceDeleted id]) := by
  cases present : s.getResource id with
  | none =>
      refine ⟨s, accounts.indexed, fun r => ?_, fun x => ?_⟩
      · rw [replayed_concat, ← accounts.table]
        simp only [Event.stepOn]
        split
        · next same => rw [← same, present]
        · rfl
      · have nobody : lastOwner events x ≠ some id := by
          intro owned
          rw [← accounts.owners, accounts.indexed.entities, present] at owned
          obtain ⟨_, found, _⟩ := owned
          cases found
        rw [lastOwner_concat, Event.ownerAfter, if_neg nobody, accounts.owners]
  | some rs =>
      refine ⟨s.delete rs id, accounts.indexed.delete present, fun r => ?_, fun x => ?_⟩
      · rw [replayed_concat, delete_getResource, accounts.table]
        simp only [Event.stepOn, eq_comm]
      · have here := accounts.indexed.entities x id
        simp only [present, Option.some.injEq, exists_eq_left'] at here
        rw [lastOwner_concat, Event.ownerAfter, delete_getResourceForEntity, ← accounts.owners, if_congr here rfl rfl]

/-- Where every record adds fresh ids, the table the log replays to shares no id. -/
theorem accounts_of_fresh (composed : Composed events) (fresh : FreshIds events) : ∃ s, Accounts s events := by
  induction events using List.reverseRecOn with
  | nil => exact ⟨empty, empty_accounts⟩
  | append_singleton events ev ih =>
      obtain ⟨composed, stands⟩ := throughout_concat.mp composed
      obtain ⟨fresh, last⟩ := throughout_concat.mp fresh
      obtain ⟨s, accounts⟩ := ih composed fresh
      cases stands with
      | created absent wf => exact ⟨_, accounts.created absent wf⟩
      | deleted id => exact accounts.deleted id
      | changed change located apart => exact ⟨_, accounts.changed change (accounts.allApply located apart last)⟩

end Accounts

end InMemoryStore

end Deltat
