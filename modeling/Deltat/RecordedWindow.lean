import Deltat.EarlyReads
import Deltat.Lib.Slots
import Deltat.ResourceForest

/-! # A copy taken while records go on

A compaction copies each resource at a moment of its own between two changes, and what was
recorded on both sides of that moment is replayed onto the copy, without the additions whose
id some copy carries.
-/

namespace Deltat

open Lib Lib.Slots

/-! ## Changes as writes to slots -/

/-- What a change does to the slot of an id. -/
def Event.writeTo (x : Ulid) (change : Event) : Option (Write Interval) :=
  match change.adds with
  | some i => if i.id = x then some (if change.removes = some x then .set i else .fill i) else none
  | none => if change.removes = some x then some .clear else none

/-- What changes do to it, in order. -/
def writes (x : Ulid) (changes : List Event) : List (Write Interval) := changes.filterMap (Event.writeTo x)

namespace Event

/-- What an update gives the fields of a resource. -/
def newName : Event → Option (Option String)
  | resourceUpdated _ name _ _ => name
  | _ => none

def newCapacity : Event → Option UInt32
  | resourceUpdated _ _ capacity _ => capacity
  | _ => none

def newBuffer : Event → Option (Option Ms)
  | resourceUpdated _ _ _ bufferAfter => bufferAfter
  | _ => none

theorem updates_none {change : Event} (added : change.addedId.isSome) :
    change.newName = none ∧ change.newCapacity = none ∧ change.newBuffer = none := by
  cases change with
  | resourceUpdated => cases added
  | _ => exact ⟨rfl, rfl, rfl⟩

end Event

namespace ResourceState

variable {rs live : ResourceState} {change : Event} {changes : List Event} {x : Ulid} {i : Interval}

/-- The interval with an id. -/
def slot (rs : ResourceState) (x : Ulid) : Option Interval := rs.intervals.find? (·.id = x)

/-- Whether the id that a change adds is not on the resource. -/
def New (rs : ResourceState) (change : Event) : Prop :=
  ∀ i, change.adds = some i → i.id ∉ rs.intervals.map (·.id) ∨ change.removes = some i.id

/-- The same for changes in their order. -/
def AddsNew : List Event → ResourceState → Prop
  | [], _ => True
  | change :: rest, rs => rs.New change ∧ AddsNew rest (rs.applySingle change)

theorem slot_eq_some (nodup : (rs.intervals.map (·.id)).Nodup) : rs.slot x = some i ↔ i ∈ rs.intervals ∧ i.id = x := by
  constructor
  · intro found
    exact ⟨List.mem_of_find?_eq_some found, by simpa using List.find?_some found⟩
  · rintro ⟨inside, rfl⟩
    cases found : rs.slot i.id with
    | none =>
        have absent := List.find?_eq_none.mp found i inside
        simp at absent
    | some j =>
        have same : j.id = i.id := by simpa using List.find?_some found
        rw [List.inj_on_of_nodup_map nodup (List.mem_of_find?_eq_some found) inside same]

theorem slot_isSome : (rs.slot x).isSome ↔ x ∈ rs.intervals.map (·.id) := by
  simp [slot]

theorem slot_eq_none : rs.slot x = none ↔ x ∉ rs.intervals.map (·.id) := by
  rw [← slot_isSome, Option.not_isSome_iff_eq_none]

theorem applySingle_nodup (nodup : (rs.intervals.map (·.id)).Nodup) (new : rs.New change) :
    ((rs.applySingle change).intervals.map (·.id)).Nodup := by
  rw [((applySingle_perm nodup change).map (·.id)).nodup_iff, List.map_append]
  have kept : ((rs.intervals.filter (some ·.id ≠ change.removes)).map (·.id)).Nodup :=
    nodup.sublist (List.filter_sublist.map _)
  cases added : change.adds with
  | none => exact kept
  | some i =>
      refine List.nodup_cons.mpr ⟨fun inKept => ?_, kept⟩
      obtain ⟨j, stays, same⟩ := List.mem_map.mp inKept
      obtain ⟨present, notRemoved⟩ := List.mem_filter.mp stays
      rcases new i added with absent | removed
      · exact absent (List.mem_map.mpr ⟨j, present, same⟩)
      · simp [removed, same] at notRemoved

/-- A change writes to the slots of the ids that it removes or adds. -/
theorem applySingle_slot (nodup : (rs.intervals.map (·.id)).Nodup) (new : rs.New change) (x : Ulid) :
    (rs.applySingle change).slot x = play (change.writeTo x).toList (rs.slot x) := by
  have nodup' := applySingle_nodup nodup new
  have perm := applySingle_perm nodup change
  apply Option.ext
  intro i
  rw [slot_eq_some nodup', perm.mem_iff, List.mem_append, Option.mem_toList, List.mem_filter]
  have kept : rs.slot x = some i ↔ i ∈ rs.intervals ∧ i.id = x := slot_eq_some nodup
  unfold Event.writeTo
  cases added : change.adds with
  | none =>
      by_cases removed : change.removes = some x
      · simp [removed, play, Write.result]
      · simp [removed, play, kept]
        grind
  | some j =>
      by_cases own : j.id = x
      · have gone : i ∈ rs.intervals → i.id = x → change.removes = some x := by
          intro there same
          refine (new j added).elim (fun absent => ?_) fun removed => own ▸ removed
          exact absurd (List.mem_map.mpr ⟨i, there, same.trans own.symm⟩) absent
        by_cases removed : change.removes = some x
        · simp [removed, own, play, Write.result]
          grind
        · simp [removed, own, play, Write.result]
          grind
      · have stays : change.removes ≠ some x := fun removed => own (Event.adds_removed added removed)
        simp [own, play, kept]
        grind

theorem new_iff : rs.New change ↔ ∀ x, FillsEmpty (change.writeTo x).toList (rs.slot x) := by
  constructor
  · intro new x
    unfold Event.writeTo
    split
    · next i added =>
        split
        · next own =>
            refine ⟨fun fills => slot_eq_none.mpr ?_, trivial⟩
            subst own
            refine (new i added).resolve_right fun removed => ?_
            simp [removed, Write.fills] at fills
        · trivial
    · split
      · exact ⟨fun fills => (by cases fills), trivial⟩
      · trivial
  · intro each i added
    by_contra neither
    rw [not_or, not_not] at neither
    have first := each i.id
    simp only [Event.writeTo, added, ↓reduceIte, neither.2, Option.toList_some, FillsEmpty] at first
    exact slot_eq_none.mp (first.1 rfl) neither.1

/-- Changes that add new ids write to the slots, each filled where it is empty. -/
theorem addsNew_iff : ∀ {rs : ResourceState}, (rs.intervals.map (·.id)).Nodup →
    (AddsNew changes rs ↔ ∀ x, FillsEmpty (writes x changes) (rs.slot x)) := by
  have cons : ∀ (x : Ulid) (change : Event) (rest : List Event),
      writes x (change :: rest) = (change.writeTo x).toList ++ writes x rest := by
    intro x change rest
    unfold writes
    rw [List.filterMap_cons]
    cases change.writeTo x <;> rfl
  induction changes with
  | nil => exact fun _ => ⟨fun _ _ => trivial, fun _ => trivial⟩
  | cons change rest ih =>
      intro rs nodup
      simp only [AddsNew, cons, fillsEmpty_append, forall_and]
      rw [new_iff]
      apply and_congr_right
      intro each
      have new := new_iff.mpr each
      rw [ih (applySingle_nodup nodup new)]
      exact forall_congr' fun x => by rw [applySingle_slot nodup new]

theorem AddsNew.applied : ∀ {rs : ResourceState}, AddsNew changes rs → (rs.intervals.map (·.id)).Nodup →
    ((changes.foldl applySingle rs).intervals.map (·.id)).Nodup ∧
      ∀ x, (changes.foldl applySingle rs).slot x = play (writes x changes) (rs.slot x) := by
  induction changes with
  | nil => exact fun _ nodup => ⟨nodup, fun _ => rfl⟩
  | cons change rest ih =>
      intro rs new nodup
      obtain ⟨nodup', slots⟩ := ih new.2 (applySingle_nodup nodup new.1)
      refine ⟨nodup', fun x => ?_⟩
      rw [List.foldl_cons, slots, applySingle_slot nodup new.1]
      unfold writes
      rw [List.filterMap_cons]
      cases change.writeTo x <;> rfl

theorem addsNew_append {before behind : List Event} : ∀ {rs : ResourceState},
    AddsNew (before ++ behind) rs ↔ AddsNew before rs ∧ AddsNew behind (before.foldl applySingle rs) := by
  induction before with
  | nil => exact fun {_} => ⟨fun new => ⟨trivial, new⟩, And.right⟩
  | cons change rest ih => exact fun {_} => (and_congr_right fun _ => ih).trans and_assoc.symm

/-- Resources with the same fields and the same interval under each id. -/
theorem restores_of_slots (nodup : (rs.intervals.map (·.id)).Nodup) (nodup' : (live.intervals.map (·.id)).Nodup)
    (slots : ∀ x, rs.slot x = live.slot x) (id : rs.id = live.id) (parentId : rs.parentId = live.parentId)
    (name : rs.name = live.name) (capacity : rs.capacity = live.capacity)
    (bufferAfter : rs.bufferAfter = live.bufferAfter) : rs.Restores live := by
  refine ⟨id, parentId, name, capacity, bufferAfter, ?_⟩
  rw [List.perm_ext_iff_of_nodup nodup.of_map nodup'.of_map]
  intro i
  have same : rs.slot i.id = some i ↔ live.slot i.id = some i := by rw [slots]
  rw [slot_eq_some nodup, slot_eq_some nodup'] at same
  simpa using same

/-! ## Fields -/

/-- A field that some changes overwrite has what the last of them gave it. -/
theorem foldl_field {α : Type} {field : ResourceState → α} {given : Event → Option α}
    (step : ∀ rs change, field (applySingle rs change) = (given change).getD (field rs)) (changes : List Event) :
    ∀ rs, field (changes.foldl applySingle rs) = (changes.filterMap given).getLast?.getD (field rs) := by
  induction changes with
  | nil => exact fun _ => rfl
  | cons change rest ih =>
      intro rs
      rw [List.foldl_cons, ih, step, List.filterMap_cons]
      cases given change with
      | none => rfl
      | some value =>
          rw [List.getLast?_cons]
          cases (rest.filterMap given).getLast? <;> rfl

/-- Replayed onto a copy, recorded changes leave a field as those behind the copy do. -/
theorem foldl_field_again {α : Type} {field : ResourceState → α} {given : Event → Option α}
    (step : ∀ rs change, field (applySingle rs change) = (given change).getD (field rs)) {kept : Event → Bool}
    (keeps : ∀ change, kept change = false → given change = none) (before behind : List Event) (base : ResourceState) :
    field (((before ++ behind).filter kept).foldl applySingle (before.foldl applySingle base)) =
      field (behind.foldl applySingle (before.foldl applySingle base)) := by
  have unfiltered : ∀ changes : List Event, (changes.filter kept).filterMap given = changes.filterMap given := by
    intro changes
    induction changes with
    | nil => rfl
    | cons change rest ih =>
        cases kind : kept change with
        | true => simp [kind, List.filterMap_cons, ih]
        | false => simp [kind, ih, keeps change kind]
  rw [foldl_field step, foldl_field step behind, unfiltered, List.filterMap_append, foldl_field step before]
  exact overwrite_again ..

theorem Restores.trans {other : ResourceState} (first : rs.Restores live) (second : live.Restores other) : rs.Restores other :=
  ⟨first.id.trans second.id, first.parentId.trans second.parentId, first.name.trans second.name,
    first.capacity.trans second.capacity, first.bufferAfter.trans second.bufferAfter, first.intervals.trans second.intervals⟩

theorem Restores.foldl (same : rs.Restores live) (nodup : (live.intervals.map (·.id)).Nodup)
    (new : AddsNew changes live) : (changes.foldl ResourceState.applySingle rs).Restores
      (changes.foldl ResourceState.applySingle live) := by
  induction changes generalizing rs live with
  | nil => exact same
  | cons change rest ih => exact ih (same.applySingle nodup change) (applySingle_nodup nodup new.1) new.2

end ResourceState

/-! ## Merging -/

/-- Whether a recorded change is replayed onto copies that carry these ids. -/
def Event.survives (carried : List Ulid) (change : Event) : Bool := change.addedId.all (!carried.contains ·)

/-- Only an addition fills a slot, under the id that it introduces. -/
theorem Event.writeTo_addedId {x : Ulid} {change : Event} {w : Write Interval} (own : change.writeTo x = some w) :
    change.addedId = if w.fills then some x else none := by
  unfold Event.writeTo at own
  cases change <;> simp_all [adds, removes, addedId]
  all_goals obtain ⟨rfl, rfl⟩ := own
  all_goals rfl

section Merging

variable {carried : List Ulid} {window later : List Event} {copy whole rs : ResourceState} {x : Ulid}

theorem writes_filter {kept : Event → Bool} {keeps : Write Interval → Bool}
    (agree : ∀ change w, change.writeTo x = some w → kept change = keeps w) :
    writes x (window.filter kept) = (writes x window).filter keeps := by
  unfold writes
  induction window with
  | nil => rfl
  | cons change rest ih =>
      rw [List.filter_cons, List.filterMap_cons]
      cases own : change.writeTo x with
      | none =>
          split
          · rw [List.filterMap_cons, own]
            exact ih
          · exact ih
      | some w =>
          rw [agree change w own, List.filter_cons]
          split
          · rw [List.filterMap_cons, own, ih]
          · exact ih

theorem writes_survive (inside : x ∈ carried) :
    writes x (window.filter (·.survives carried)) = (writes x window).filter (!·.fills) := by
  apply writes_filter
  intro change w own
  cases fills : w.fills <;> simp [Event.survives, Event.writeTo_addedId own, fills, inside]

theorem writes_untouched (absent : x ∉ carried) :
    writes x (window.filter (·.survives carried)) = writes x window := by
  have all : writes x (window.filter (·.survives carried)) = (writes x window).filter fun _ => true := by
    apply writes_filter
    intro change w own
    cases fills : w.fills <;> simp [Event.survives, Event.writeTo_addedId own, fills, absent]
  rw [all, List.filter_true]

/-- A copy of a resource, taken between the changes of a window, against the resource once these
    and later ones are applied. -/
def CopiedWithin (window later : List Event) (copy whole : ResourceState) : Prop :=
  ∃ base before behind, window = before ++ behind ∧ (base.intervals.map (·.id)).Nodup ∧
    ResourceState.AddsNew before base ∧ copy = before.foldl ResourceState.applySingle base ∧
    ResourceState.AddsNew (behind ++ later) copy ∧ whole = (behind ++ later).foldl ResourceState.applySingle copy

/-- Where each id that the copies carry keeps its copy, what survives of the window is replayed
    onto a copy as if there were only the changes behind it. -/
theorem CopiedWithin.merged (within : CopiedWithin window later copy whole)
    (all : ∀ x ∈ copy.intervals.map (·.id), x ∈ carried)
    (keeps : ∀ x ∈ carried, KeepsCopy (writes x window) (copy.slot x)) (restores : rs.Restores copy) :
    ((window.filter (·.survives carried) ++ later).foldl ResourceState.applySingle rs).Restores whole := by
  obtain ⟨base, before, behind, rfl, nodup, new, taken, new', rfl⟩ := within
  obtain ⟨nodup', slots⟩ := new.applied nodup
  rw [← taken] at nodup' slots
  obtain ⟨newBehind, newLater⟩ := ResourceState.addsNew_append.mp new'
  have fills := (ResourceState.addsNew_iff nodup').mp newBehind
  have each : ∀ x, FillsEmpty (writes x ((before ++ behind).filter (·.survives carried))) (copy.slot x) ∧
      play (writes x ((before ++ behind).filter (·.survives carried))) (copy.slot x) =
        play (writes x behind) (copy.slot x) := by
    intro x
    have split : writes x (before ++ behind) = writes x before ++ writes x behind := List.filterMap_append
    by_cases inside : x ∈ carried
    · rw [writes_survive inside]
      refine ⟨fillsEmpty_of_none fun w kept => by simpa using (List.mem_filter.mp kept).2, ?_⟩
      have kept := keeps x inside
      rw [split] at kept ⊢
      exact replay_kept (slots x) (fills x) kept
    · have empty : copy.slot x = none := ResourceState.slot_eq_none.mpr fun there => inside (all x there)
      rw [writes_untouched inside, split, empty]
      have gone : play (writes x before) (base.slot x) = none := (slots x).symm.trans empty
      refine ⟨replay_empty_fills ?_ gone, replay_empty gone⟩
      refine fillsEmpty_append.mpr ⟨(ResourceState.addsNew_iff nodup).mp new x, ?_⟩
      rw [← slots]
      exact fills x
  have merged : ResourceState.AddsNew ((before ++ behind).filter (·.survives carried)) copy :=
    (ResourceState.addsNew_iff nodup').mpr fun x => (each x).1
  obtain ⟨nodup₁, slots₁⟩ := merged.applied nodup'
  obtain ⟨nodup₂, slots₂⟩ := newBehind.applied nodup'
  -- No addition is dropped that would set a field.
  have plain : ∀ {α : Type} {given : Event → Option α}, (∀ change, change.addedId.isSome → given change = none) →
      ∀ change : Event, change.survives carried = false → given change = none := by
    intro α given none change dropped
    apply none change
    cases added : change.addedId with
    | none => simp [Event.survives, added] at dropped
    | some _ => rfl
  have field : ∀ {α : Type} {field : ResourceState → α} (given : Event → Option α),
      (∀ rs change, field (ResourceState.applySingle rs change) = (given change).getD (field rs)) →
      (∀ change, change.addedId.isSome → given change = none) →
      field (((before ++ behind).filter (·.survives carried)).foldl ResourceState.applySingle copy) =
        field (behind.foldl ResourceState.applySingle copy) := by
    intro α field given step none
    rw [taken]
    exact ResourceState.foldl_field_again step (plain none) before behind base
  rw [List.foldl_append, List.foldl_append]
  refine ResourceState.Restores.foldl ?_ nodup₂ newLater
  have same : (((before ++ behind).filter (·.survives carried)).foldl ResourceState.applySingle copy).Restores
      (behind.foldl ResourceState.applySingle copy) := by
    apply ResourceState.restores_of_slots nodup₁ nodup₂
    · intro x
      rw [slots₁, slots₂, (each x).2]
    · exact field (fun _ => none) (fun rs change => ResourceState.applySingle_id change) fun _ _ => rfl
    · exact field (fun _ => none) (fun rs change => ResourceState.applySingle_parentId change) fun _ _ => rfl
    · exact field Event.newName (fun rs change => by cases change <;> rfl) fun change added =>
        (Event.updates_none added).1
    · exact field Event.newCapacity (fun rs change => by cases change <;> rfl) fun change added =>
        (Event.updates_none added).2.1
    · exact field Event.newBuffer (fun rs change => by cases change <;> rfl) fun change added =>
        (Event.updates_none added).2.2
  exact (restores.foldl nodup' merged).trans same

/-- A resource in front of the window, and the changes of the window. -/
def BasedOn (window : List Event) (whole : ResourceState) : Prop :=
  ∃ base, (base.intervals.map (·.id)).Nodup ∧ ResourceState.AddsNew window base ∧
    whole = window.foldl ResourceState.applySingle base

theorem BasedOn.nodup (based : BasedOn window whole) : (whole.intervals.map (·.id)).Nodup := by
  obtain ⟨base, nodup, new, rfl⟩ := based
  exact (new.applied nodup).1

theorem BasedOn.more (based : BasedOn window whole) (new : ResourceState.AddsNew later whole) :
    BasedOn (window ++ later) (later.foldl ResourceState.applySingle whole) := by
  obtain ⟨base, nodup, adds, rfl⟩ := based
  exact ⟨base, nodup, ResourceState.addsNew_append.mpr ⟨adds, new⟩, List.foldl_append.symm⟩

/-- The window may begin later. -/
theorem BasedOn.behind {before : List Event} (based : BasedOn (before ++ window) whole) : BasedOn window whole := by
  obtain ⟨base, nodup, adds, rfl⟩ := based
  obtain ⟨first, later⟩ := ResourceState.addsNew_append.mp adds
  exact ⟨_, (first.applied nodup).1, later, List.foldl_append⟩

/-- A copy taken now. -/
theorem BasedOn.copied (based : BasedOn window whole) : CopiedWithin window [] whole whole := by
  obtain ⟨base, nodup, adds, same⟩ := based
  exact ⟨base, window, [], (List.append_nil _).symm, nodup, adds, same, trivial, rfl⟩

theorem CopiedWithin.append {more : List Event} (within : CopiedWithin window later copy whole)
    (new : ResourceState.AddsNew more whole) :
    CopiedWithin window (later ++ more) copy (more.foldl ResourceState.applySingle whole) := by
  obtain ⟨base, before, behind, split, nodup, adds, taken, adds', rfl⟩ := within
  refine ⟨base, before, behind, split, nodup, adds, taken, ?_, ?_⟩
  · rw [← List.append_assoc]
    exact ResourceState.addsNew_append.mpr ⟨adds', new⟩
  · rw [← List.append_assoc, List.foldl_append (l := behind ++ later)]

/-- The window still open. -/
theorem CopiedWithin.more {more : List Event} (within : CopiedWithin window [] copy whole)
    (new : ResourceState.AddsNew more whole) :
    CopiedWithin (window ++ more) [] copy (more.foldl ResourceState.applySingle whole) := by
  obtain ⟨base, before, behind, rfl, nodup, adds, taken, adds', rfl⟩ := within
  rw [List.append_nil] at adds' new ⊢
  refine ⟨base, before, behind ++ more, List.append_assoc .., nodup, adds, taken, ?_, ?_⟩
  · rw [List.append_nil]
    exact ResourceState.addsNew_append.mpr ⟨adds', new⟩
  · rw [List.append_nil, List.foldl_append]

end Merging

/-! ## The merged file -/

namespace Compaction

variable {snapshots : List ResourceState} {recorded later : List Event} {r : Ulid}

/-- The ids that a list of snapshots carries. -/
def carried (snapshots : List ResourceState) : List Ulid := (snapshotEvents snapshots).filterMap Event.addedId

theorem mem_carried {copy : ResourceState} (member : copy ∈ snapshots) {x : Ulid}
    (inside : x ∈ copy.intervals.map (·.id)) : x ∈ carried snapshots := by
  obtain ⟨i, there, rfl⟩ := List.mem_map.mp inside
  refine List.mem_filterMap.mpr ⟨i.toEvent copy.id, List.mem_flatMap.mpr ⟨copy, ?_, ?_⟩, ?_⟩
  · exact (List.perm_insertionSort _ _).mem_iff.mpr member
  · exact List.mem_cons_of_mem _ (List.mem_map_of_mem there)
  · obtain ⟨id, span, kind⟩ := i
    cases kind <;> rfl

/-- What survives of the record, on one resource. -/
theorem survivors_changesOn : ((recorded.flatMap Event.perResource).filter (·.survives (carried snapshots))).flatMap
    (Event.changesOn r) = (recorded.flatMap (Event.changesOn r)).filter (·.survives (carried snapshots)) := by
  have steps : ∀ change ∈ recorded.flatMap Event.perResource, change.perResource = [change] := by
    intro change inside
    obtain ⟨record, _, step⟩ := List.mem_flatMap.mp inside
    exact Event.perResource_step step
  have own : recorded.flatMap (Event.changesOn r) =
      (recorded.flatMap Event.perResource).filter (·.resourceId? = some r) := List.filter_flatMap.symm
  rw [own]
  generalize recorded.flatMap Event.perResource = changes at steps
  induction changes with
  | nil => rfl
  | cons change rest ih =>
      obtain ⟨single, others⟩ := List.forall_mem_cons.mp steps
      have ih := ih others
      by_cases survives : change.survives (carried snapshots) <;> by_cases here : change.resourceId? = some r <;>
        simp [survives, here, Event.changesOn, single, ih]

/-- The compacted file and what is appended to it, read for one resource. -/
theorem merged_getResource (snapshots : List ResourceState) (r : Ulid) (changes : ∀ ev ∈ recorded, ev.isChange) (changes' : ∀ ev ∈ later, ev.isChange) :
    ∃ sorted : List ResourceState, sorted.Perm snapshots ∧
      (InMemoryStore.replayed (mergeRecorded (snapshotEvents snapshots) recorded ++ later)).getResource r =
        ((sorted.flatMap resourceEvents).foldl (fun entry ev => ev.stepOn r entry) none).map
          (((recorded.flatMap (Event.changesOn r)).filter (·.survives (carried snapshots)) ++
            later.flatMap (Event.changesOn r)).foldl ResourceState.applySingle) := by
  obtain ⟨sorted, perm, events⟩ : ∃ sorted : List ResourceState, sorted.Perm snapshots ∧
      snapshotEvents snapshots = sorted.flatMap resourceEvents := ⟨_, List.perm_insertionSort _ _, rfl⟩
  refine ⟨sorted, perm, ?_⟩
  have each : ∀ ev ∈ (recorded.flatMap Event.perResource).filter (·.survives (carried snapshots)) ++ later, ev.isChange := by
    intro ev inside
    rcases List.mem_append.mp inside with kept | appended
    · obtain ⟨record, there, step⟩ := List.mem_flatMap.mp (List.mem_filter.mp kept).1
      exact Event.perResource_isChange (changes record there) step
    · exact changes' ev appended
  have merged : mergeRecorded (snapshotEvents snapshots) recorded ++ later = sorted.flatMap resourceEvents ++
      ((recorded.flatMap Event.perResource).filter (·.survives (carried snapshots)) ++ later) := by
    rw [← List.append_assoc, ← events]
    rfl
  rw [merged, InMemoryStore.replayed_getResource, List.foldl_append,
    foldl_stepOn_changes fun ev inside => .inl (each ev inside), List.flatMap_append, survivors_changesOn]

/-- It rebuilds a resource from its copy. -/
theorem merged_copied (nodup : (snapshots.map (·.id)).Nodup) {copy : ResourceState} (member : copy ∈ snapshots)
    (changes : ∀ ev ∈ recorded, ev.isChange) (changes' : ∀ ev ∈ later, ev.isChange) : ∃ rs, rs.Restores copy ∧
      (InMemoryStore.replayed (mergeRecorded (snapshotEvents snapshots) recorded ++ later)).getResource copy.id =
        some (((recorded.flatMap (Event.changesOn copy.id)).filter (·.survives (carried snapshots)) ++
          later.flatMap (Event.changesOn copy.id)).foldl ResourceState.applySingle rs) := by
  obtain ⟨sorted, perm, read⟩ := merged_getResource snapshots copy.id changes changes'
  have nodup' := (perm.map (·.id)).nodup_iff.mpr nodup
  obtain ⟨rs, found, restores⟩ := foldl_snapshots nodup' (perm.mem_iff.mpr member) none
  exact ⟨rs, restores, by rw [read, found, Option.map_some]⟩

theorem merged_absent (absent : r ∉ snapshots.map (·.id)) (changes : ∀ ev ∈ recorded, ev.isChange)
    (changes' : ∀ ev ∈ later, ev.isChange) :
    (InMemoryStore.replayed (mergeRecorded (snapshotEvents snapshots) recorded ++ later)).getResource r = none := by
  obtain ⟨sorted, perm, read⟩ := merged_getResource snapshots r changes changes'
  rw [read, foldl_snapshots_absent, Option.map_none]
  rwa [(perm.map (·.id)).mem_iff]

end Compaction

end Deltat
