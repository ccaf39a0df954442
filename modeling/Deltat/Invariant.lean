import Deltat.Conflict
import Deltat.Table

/-! # Well-formed resources

What every resource of a running engine satisfies: sorted intervals with ids of their own,
every field inside the limits the write path checks. A single-resource change keeps it when
the change applies: what it removes is there, what it adds is new.
-/

namespace Deltat

open Lib Limits Conflict

/-- What `validate_span` and the span constructor leave of a span. -/
structure Span.Admitted (s : Span) : Prop where
  proper : s.start < s.end
  lower : minValidTimestampMs ≤ s.start
  upper : s.end ≤ maxValidTimestampMs
  width : s.durationMs ≤ maxSpanDurationMs

/-- The values a hold's expiry and a booking's label can have. -/
def IntervalKind.Admitted : IntervalKind → Prop
  | .hold expiresAt => i64Min ≤ expiresAt ∧ expiresAt ≤ i64Max
  | .booking label => validateLabel label = .ok ()
  | _ => True

structure Interval.Admitted (i : Interval) : Prop where
  span : i.span.Admitted
  kind : i.kind.Admitted

namespace Conflict

theorem validateSpan_admits {s : Span} (proper : s.Valid) (ok : validateSpan s = .ok ()) : s.Admitted := by
  unfold validateSpan at ok
  split at ok
  · cases ok
  · next range =>
      split at ok
      · cases ok
      · next width => exact ⟨proper, by lia, by lia, by lia⟩

theorem validateCapacity_ok {capacity : UInt32} : validateCapacity capacity = .ok () ↔ capacity ≠ 0 := by
  unfold validateCapacity
  split <;> simp_all

theorem validateBuffer_ok {bufferAfter : Option Ms} :
    validateBuffer bufferAfter = .ok () ↔
      ∀ b, bufferAfter = some b → 0 ≤ b ∧ b ≤ maxSpanDurationMs := by
  unfold validateBuffer
  split
  · split <;> simp_all
  · simp

theorem validateTimestamp_ok {ts : Ms} :
    validateTimestamp ts = .ok () ↔ minValidTimestampMs ≤ ts ∧ ts ≤ maxValidTimestampMs := by
  unfold validateTimestamp
  split <;> simp_all

end Conflict

namespace ResourceState

structure WellFormed (rs : ResourceState) : Prop where
  sorted : rs.intervals.Pairwise fun a b => a.span.start ≤ b.span.start
  idsNodup : (rs.intervals.map (·.id)).Nodup
  admitted : ∀ i ∈ rs.intervals, i.Admitted
  capacity : rs.capacity ≠ 0
  bufferAfter : validateBuffer rs.bufferAfter = .ok ()
  name : validateName rs.name = .ok ()

variable {rs : ResourceState}

theorem WellFormed.buffer_bounds (wf : rs.WellFormed) : 0 ≤ rs.buffer ∧ rs.buffer ≤ maxSpanDurationMs := by
  unfold buffer
  cases given : rs.bufferAfter with
  | none => simp [maxSpanDurationMs]
  | some b => exact validateBuffer_ok.mp wf.bufferAfter b given

theorem new_wellFormed {id : Ulid} {parentId : Option Ulid} {name : Option String} {capacity : UInt32}
    {bufferAfter : Option Ms} (cap : validateCapacity capacity = .ok ())
    (buf : validateBuffer bufferAfter = .ok ()) (nm : validateName name = .ok ()) :
    (ResourceState.new id parentId name capacity bufferAfter).WellFormed where
  sorted := .nil
  idsNodup := List.nodup_nil
  admitted := by simp [new]
  capacity := validateCapacity_ok.mp cap
  bufferAfter := buf
  name := nm

/-! ## The effect of a change on the intervals -/

/-- With distinct ids, removing the first interval with an id removes every one. -/
theorem removeInterval_intervals (nodup : (rs.intervals.map (·.id)).Nodup) (id : Ulid) :
    (rs.removeInterval id).intervals = rs.intervals.filter (·.id ≠ id) := by
  change rs.intervals.eraseP (·.id = id) = _
  generalize rs.intervals = intervals at nodup ⊢
  induction intervals with
  | nil => rfl
  | cons i rest ih =>
      simp only [List.map_cons, List.nodup_cons] at nodup
      by_cases found : i.id = id
      · have others : ∀ j ∈ rest, decide (j.id ≠ id) = true := fun j inRest => by
          have apart : j.id ≠ id := fun same =>
            nodup.1 (found ▸ same ▸ List.mem_map_of_mem inRest)
          simpa using apart
        rw [List.eraseP_cons_of_pos (by simpa using found), List.filter_cons_of_neg (by simpa using found),
          List.filter_eq_self.mpr others]
      · rw [List.eraseP_cons_of_neg (by simpa using found), List.filter_cons_of_pos (by simpa using found),
          ih nodup.2]

theorem insertInterval_perm (i : Interval) : (rs.insertInterval i).intervals.Perm (i :: rs.intervals) :=
  BinarySearch.insertAt_perm _ _ _

theorem insertInterval_sorted (i : Interval)
    (sorted : rs.intervals.Pairwise fun a b => a.span.start ≤ b.span.start) :
    (rs.insertInterval i).intervals.Pairwise fun a b => a.span.start ≤ b.span.start :=
  BinarySearch.insertAt_sorted i sorted

@[simp] theorem take_none : rs.take none = rs := rfl

theorem take_intervals (nodup : (rs.intervals.map (·.id)).Nodup) (x : Option Ulid) :
    (rs.take x).intervals = rs.intervals.filter (some ·.id ≠ x) := by
  cases x with
  | none => simp
  | some x => simpa [take] using removeInterval_intervals nodup x

theorem put_perm (i : Option Interval) : (rs.put i).intervals.Perm (i.toList ++ rs.intervals) := by
  cases i with
  | none => exact .refl _
  | some i => exact insertInterval_perm i

@[simp] theorem setFields_intervals (ev : Event) (rs : ResourceState) :
    (ev.setFields rs).intervals = rs.intervals := by
  cases ev <;> rfl

@[simp] theorem take_id (x : Option Ulid) : (rs.take x).id = rs.id := by cases x <;> rfl
@[simp] theorem put_id (i : Option Interval) : (rs.put i).id = rs.id := by cases i <;> rfl
@[simp] theorem setFields_id (ev : Event) (rs : ResourceState) : (ev.setFields rs).id = rs.id := by
  cases ev <;> rfl

@[simp] theorem take_parentId (x : Option Ulid) : (rs.take x).parentId = rs.parentId := by cases x <;> rfl
@[simp] theorem put_parentId (i : Option Interval) : (rs.put i).parentId = rs.parentId := by cases i <;> rfl
@[simp] theorem setFields_parentId (ev : Event) (rs : ResourceState) :
    (ev.setFields rs).parentId = rs.parentId := by
  cases ev <;> rfl

@[simp] theorem applySingle_id (ev : Event) : (rs.applySingle ev).id = rs.id := by
  simp [applySingle_eq]

@[simp] theorem applySingle_parentId (ev : Event) : (rs.applySingle ev).parentId = rs.parentId := by
  simp [applySingle_eq]

/-- The intervals after a change: those it does not remove, and the one it adds. -/
theorem applySingle_perm (nodup : (rs.intervals.map (·.id)).Nodup) (ev : Event) :
    (rs.applySingle ev).intervals.Perm
      (ev.adds.toList ++ rs.intervals.filter (some ·.id ≠ ev.removes)) := by
  rw [applySingle_eq, setFields_intervals, ← take_intervals nodup]
  exact put_perm _

theorem mem_applySingle_ids (nodup : (rs.intervals.map (·.id)).Nodup) (ev : Event) (x : Ulid) :
    x ∈ (rs.applySingle ev).intervals.map (·.id) ↔
      ev.adds.map (·.id) = some x ∨ (x ∈ rs.intervals.map (·.id) ∧ ev.removes ≠ some x) := by
  rw [((applySingle_perm nodup ev).map (·.id)).mem_iff, List.map_append, List.mem_append]
  have added : x ∈ ev.adds.toList.map (·.id) ↔ ev.adds.map (·.id) = some x := by
    cases ev.adds <;> simp [eq_comm]
  have kept : x ∈ (rs.intervals.filter (some ·.id ≠ ev.removes)).map (·.id) ↔
      x ∈ rs.intervals.map (·.id) ∧ ev.removes ≠ some x := by
    simp only [List.mem_map, List.mem_filter, decide_eq_true_eq]
    constructor
    · rintro ⟨i, ⟨present, stays⟩, rfl⟩
      exact ⟨⟨i, present, rfl⟩, Ne.symm stays⟩
    · rintro ⟨⟨i, present, rfl⟩, stays⟩
      exact ⟨i, ⟨present, Ne.symm stays⟩, rfl⟩
  rw [added, kept]

/-- What a change needs of the resource it is applied to. -/
structure Accepts (rs : ResourceState) (ev : Event) : Prop where
  admitted : ∀ i, ev.adds = some i → i.Admitted
  fresh : ∀ i, ev.adds = some i → i.id ∉ rs.intervals.map (·.id) ∨ ev.removes = some i.id
  fields : ∀ rs : ResourceState, rs.WellFormed → (ev.setFields rs).WellFormed

theorem applySingle_sorted (sorted : rs.intervals.Pairwise fun a b => a.span.start ≤ b.span.start)
    (ev : Event) : (rs.applySingle ev).intervals.Pairwise fun a b => a.span.start ≤ b.span.start := by
  rw [applySingle_eq, setFields_intervals]
  have taken : (rs.take ev.removes).intervals.Pairwise fun a b => a.span.start ≤ b.span.start := by
    cases ev.removes with
    | none => exact sorted
    | some x => exact sorted.sublist List.eraseP_sublist
  cases ev.adds with
  | none => exact taken
  | some i => exact insertInterval_sorted i taken

theorem applySingle_fields (rs : ResourceState) (ev : Event) :
    (rs.applySingle ev).capacity = (ev.setFields rs).capacity ∧
      (rs.applySingle ev).bufferAfter = (ev.setFields rs).bufferAfter ∧
      (rs.applySingle ev).name = (ev.setFields rs).name := by
  cases ev <;> exact ⟨rfl, rfl, rfl⟩

theorem applySingle_wellFormed (wf : rs.WellFormed) {ev : Event} (accepts : rs.Accepts ev) :
    (rs.applySingle ev).WellFormed := by
  have perm := applySingle_perm wf.idsNodup ev
  obtain ⟨capacity, bufferAfter, name⟩ := applySingle_fields rs ev
  refine ⟨applySingle_sorted wf.sorted ev, ?_, ?_, ?_, ?_, ?_⟩
  · refine (perm.map (·.id)).nodup_iff.mpr ?_
    have kept : ((rs.intervals.filter (some ·.id ≠ ev.removes)).map (·.id)).Nodup :=
      wf.idsNodup.sublist (List.filter_sublist.map _)
    cases added : ev.adds with
    | none => simpa using kept
    | some i =>
        refine List.nodup_cons.mpr ⟨fun inKept => ?_, kept⟩
        obtain ⟨j, stays, same⟩ := List.mem_map.mp inKept
        obtain ⟨present, notRemoved⟩ := List.mem_filter.mp stays
        rcases accepts.fresh i added with absent | removed
        · exact absent (List.mem_map.mpr ⟨j, present, same⟩)
        · simp [removed, same] at notRemoved
  · intro j after
    rcases List.mem_append.mp (perm.mem_iff.mp after) with added | stays
    · exact accepts.admitted j (Option.mem_toList.mp added)
    · exact wf.admitted j (List.mem_filter.mp stays).1
  · rw [capacity]; exact (accepts.fields rs wf).capacity
  · rw [bufferAfter]; exact (accepts.fields rs wf).bufferAfter
  · rw [name]; exact (accepts.fields rs wf).name

end ResourceState

/-! ## Several changes at once

Changes about different entities can be applied in any order, and each stays applicable
after the others.
-/

/-- Changes that are about different entities. -/
def Event.Independent (a b : Event) : Prop := ∀ x ∈ a.touches, x ∉ b.touches

theorem Event.Independent.symm {a b : Event} (h : a.Independent b) : b.Independent a :=
  fun x inB inA => h x inA inB

instance : Std.Symm Event.Independent := ⟨fun _ _ => Event.Independent.symm⟩

theorem Event.mem_touches {ev : Event} {x : Ulid} :
    x ∈ ev.touches ↔ ev.removes = some x ∨ ev.adds.map (·.id) = some x := by
  simp [Event.touches, eq_comm]

namespace ResourceState

variable {rs : ResourceState} {a b : Event}

theorem Accepts.after (wf : rs.WellFormed) (accepts : rs.Accepts b) (apart : a.Independent b) :
    (rs.applySingle a).Accepts b where
  admitted := accepts.admitted
  fields := accepts.fields
  fresh i added := by
    refine (accepts.fresh i added).imp_left fun absent inside => ?_
    have touched : i.id ∈ b.touches := Event.mem_touches.mpr (.inr (by simp [added]))
    rcases (mem_applySingle_ids wf.idsNodup a i.id).mp inside with put | kept
    · exact apart.symm _ touched (Event.mem_touches.mpr (.inr put))
    · exact absent kept.1

/-- After independent changes a resource is still well formed, and its intervals are those
    that no change removes together with those that the changes add. -/
theorem foldl_applySingle {changes : List Event} (apart : changes.Pairwise Event.Independent) :
    ∀ {rs : ResourceState}, rs.WellFormed → (∀ ev ∈ changes, rs.Accepts ev) →
      (changes.foldl applySingle rs).WellFormed ∧
      (changes.foldl applySingle rs).intervals.Perm
        (changes.filterMap (·.adds) ++
          rs.intervals.filter fun i => decide (some i.id ∉ changes.map (·.removes))) := by
  induction changes with
  | nil => intro rs wf _; exact ⟨wf, by simp⟩
  | cons ev rest ih =>
      intro rs wf accepts
      obtain ⟨first, others⟩ := List.pairwise_cons.mp apart
      have accepted := accepts ev List.mem_cons_self
      have wf' := applySingle_wellFormed wf accepted
      obtain ⟨done, perm⟩ := ih others wf' fun b inRest =>
        (accepts b (List.mem_cons_of_mem _ inRest)).after wf (first b inRest)
      refine ⟨done, perm.trans ?_⟩
      have step := applySingle_perm wf.idsNodup ev
      -- What this change adds is about another entity than every later removal.
      have stays : ev.adds.toList.filter (fun i => decide (some i.id ∉ rest.map (·.removes))) =
          ev.adds.toList := by
        refine List.filter_eq_self.mpr fun i added => ?_
        rw [decide_eq_true_eq]
        intro removed
        obtain ⟨b, inRest, removes⟩ := List.mem_map.mp removed
        have here : i.id ∈ ev.touches :=
          Event.mem_touches.mpr (.inr (by rw [Option.mem_toList.mp added]; rfl))
        exact first b inRest i.id here (Event.mem_touches.mpr (.inl removes))
      have kept := step.filter fun i => decide (some i.id ∉ rest.map (·.removes))
      rw [List.filter_append, stays, List.filter_filter] at kept
      have same : (rs.intervals.filter fun i => decide (some i.id ∉ rest.map (·.removes)) &&
            decide (some i.id ≠ ev.removes)) =
          rs.intervals.filter fun i => decide (some i.id ∉ (ev :: rest).map (·.removes)) := by
        refine List.filter_congr fun i _ => ?_
        simp only [List.map_cons, List.mem_cons, not_or, Bool.decide_and, ne_eq]
        exact Bool.and_comm _ _
      rw [same] at kept
      have added : (ev :: rest).filterMap (·.adds) = ev.adds.toList ++ rest.filterMap (·.adds) := by
        rw [List.filterMap_cons]
        cases ev.adds <;> rfl
      rw [added]
      refine (kept.append_left _).trans ?_
      rw [← List.append_assoc]
      exact List.perm_append_comm.append_right _

end ResourceState

/-! ## The whole store -/

/-- Every resource is well formed under its own id, and the entity index is exact. -/
structure InMemoryStore.Indexed (s : InMemoryStore) : Prop where
  ids : ∀ r rs, s.getResource r = some rs → rs.id = r
  wellFormed : ∀ r rs, s.getResource r = some rs → rs.WellFormed
  entities : ∀ x r, s.getResourceForEntity x = some r ↔
    ∃ rs, s.getResource r = some rs ∧ x ∈ rs.intervals.map (·.id)

/-- The four views of a store agree, and every resource is well formed. -/
structure InMemoryStore.Consistent (s : InMemoryStore) : Prop where
  ids : ∀ r rs, s.getResource r = some rs → rs.id = r
  wellFormed : ∀ r rs, s.getResource r = some rs → rs.WellFormed
  entities : ∀ x r, s.getResourceForEntity x = some r ↔
    ∃ rs, s.getResource r = some rs ∧ x ∈ rs.intervals.map (·.id)
  parents : ∀ c, s.getParent c = (s.getResource c).bind (·.parentId)
  parentExists : ∀ c rs p, s.getResource c = some rs → rs.parentId = some p → (s.getResource p).isSome
  children : ∀ p c, c ∈ s.getChildren p ↔ ∃ rs, s.getResource c = some rs ∧ rs.parentId = some p
  childrenNodup : ∀ p, (s.getChildren p).Nodup

/-- When a single-resource change may be applied: its resource exists, what it removes is
    there, and what it adds carries an id that nothing else carries. -/
structure Event.Applies (ev : Event) (s : InMemoryStore) (r : Ulid) : Prop where
  routed : ev.resourceId? = some r
  present : (s.getResource r).isSome
  removes : ∀ x, ev.removes = some x → s.getResourceForEntity x = some r
  admitted : ∀ i, ev.adds = some i → i.Admitted
  fresh : ∀ i, ev.adds = some i → s.getResourceForEntity i.id = none ∨ ev.removes = some i.id
  fields : ∀ rs : ResourceState, rs.WellFormed → (ev.setFields rs).WellFormed

namespace InMemoryStore

variable {s : InMemoryStore} {ev : Event} {r : Ulid}

theorem empty_consistent : empty.Consistent := by
  constructor <;> simp [empty, getResource, getResourceForEntity, getParent, getChildren]

theorem Consistent.indexed (c : s.Consistent) : s.Indexed := ⟨c.ids, c.wellFormed, c.entities⟩

theorem empty_indexed : empty.Indexed := empty_consistent.indexed

theorem Indexed.fresh_notMem (c : s.Indexed) {rs : ResourceState} {x : Ulid}
    (present : s.getResource r = some rs) (fresh : s.getResourceForEntity x = none) :
    x ∉ rs.intervals.map (·.id) := fun inside => by
  have mapped := (c.entities x r).mpr ⟨rs, present, inside⟩
  rw [fresh] at mapped
  cases mapped

theorem Indexed.accepts (c : s.Indexed) {rs : ResourceState} (present : s.getResource r = some rs)
    (applies : ev.Applies s r) : rs.Accepts ev where
  admitted := applies.admitted
  fresh i added := (applies.fresh i added).imp (c.fresh_notMem present) id
  fields := applies.fields

/-- Replacing one resource keeps the index exact when it follows the ids of that resource and
    leaves those of the others. -/
theorem Indexed.replaceOne (c : s.Indexed) {s' : InMemoryStore} {rs rs' : ResourceState}
    (present : s.getResource r = some rs)
    (table : ∀ x, s'.getResource x = if x = r then some rs' else s.getResource x)
    (sameId : rs'.id = rs.id) (wf : rs'.WellFormed)
    (here : ∀ x, s'.getResourceForEntity x = some r ↔ x ∈ rs'.intervals.map (·.id))
    (elsewhere : ∀ x q, q ≠ r → (s'.getResourceForEntity x = some q ↔ s.getResourceForEntity x = some q)) :
    s'.Indexed := by
  constructor
  case ids =>
    intro x other found
    rw [table] at found
    split at found
    · next same => cases found; rw [sameId, c.ids r rs present, same]
    · exact c.ids x other found
  case wellFormed =>
    intro x other found
    rw [table] at found
    split at found
    · cases found; exact wf
    · exact c.wellFormed x other found
  case entities =>
    intro x q
    rw [table]
    split
    · next same => subst same; simpa using here x
    · next apart => rw [elsewhere x q apart, c.entities]

/-- Replacing the intervals and fields of one resource keeps the hierarchy. -/
theorem Consistent.replaceOne (c : s.Consistent) {s' : InMemoryStore} {rs rs' : ResourceState}
    (present : s.getResource r = some rs)
    (table : ∀ x, s'.getResource x = if x = r then some rs' else s.getResource x)
    (parents : ∀ x, s'.getParent x = s.getParent x) (children : ∀ x, s'.getChildren x = s.getChildren x)
    (sameParent : rs'.parentId = rs.parentId) (indexed : s'.Indexed) : s'.Consistent := by
  constructor
  case ids => exact indexed.ids
  case wellFormed => exact indexed.wellFormed
  case entities => exact indexed.entities
  case parents =>
    intro x
    rw [parents, c.parents, table]
    split
    · next same => subst same; simp [present, sameParent]
    · rfl
  case parentExists =>
    intro x other p found hasParent
    rw [table] at found ⊢
    have before : ∃ old, s.getResource x = some old ∧ old.parentId = some p := by
      split at found
      · next same => cases found; exact ⟨rs, same ▸ present, sameParent ▸ hasParent⟩
      · exact ⟨other, found, hasParent⟩
    obtain ⟨old, oldPresent, oldParent⟩ := before
    have still := c.parentExists x old p oldPresent oldParent
    split
    · rfl
    · exact still
  case children =>
    intro p x
    rw [children, c.children, table]
    split
    · next same => subst same; simp [present, sameParent]
    · rfl
  case childrenNodup =>
    intro p
    rw [children]
    exact c.childrenNodup p

/-- An id that another resource carries is neither added nor removed by a change that applies. -/
theorem Event.Applies.untouched (applies : ev.Applies s r) {x q : Ulid} (apart : q ≠ r)
    (mapped : s.getResourceForEntity x = some q) : ev.adds.map (·.id) ≠ some x ∧ ev.removes ≠ some x := by
  have notRemoved : ev.removes ≠ some x := fun removed => by
    have here := applies.removes x removed
    rw [mapped] at here
    exact apart (Option.some.inj here)
  refine ⟨fun added => ?_, notRemoved⟩
  obtain ⟨i, isAdded, rfl⟩ := Option.map_eq_some_iff.mp added
  rcases applies.fresh i isAdded with free | removed
  · rw [mapped] at free; cases free
  · exact notRemoved removed

theorem Indexed.replayChange (c : s.Indexed) (applies : ev.Applies s r) : (s.replayChange ev).Indexed := by
  obtain ⟨rs, present⟩ := Option.isSome_iff_exists.mp applies.present
  have table := replayChange_getResource (s := s) applies.routed
  have index := replayChange_getResourceForEntity applies.routed present
  simp only [present, Option.map_some] at table
  have nodup := (c.wellFormed r rs present).idsNodup
  refine c.replaceOne present table (ResourceState.applySingle_id ev)
    (ResourceState.applySingle_wellFormed (c.wellFormed r rs present) (c.accepts present applies))
    (fun x => ?_) (fun x q apart => ?_)
  · have before := c.entities x r
    simp only [present, Option.some.injEq, exists_eq_left'] at before
    rw [index, ResourceState.mem_applySingle_ids nodup, ← before]
    by_cases added : ev.adds.map (·.id) = some x <;> by_cases removed : ev.removes = some x <;>
      simp [added, removed]
  · rw [index]
    have different : some r ≠ some q := fun h => apart (Option.some.inj h).symm
    constructor
    · intro mapped
      split at mapped
      · exact absurd mapped different
      · split at mapped
        · cases mapped
        · exact mapped
    · intro mapped
      obtain ⟨notAdded, notRemoved⟩ := Event.Applies.untouched applies apart mapped
      simp only [notAdded, notRemoved, ↓reduceIte, mapped]

theorem Consistent.replayChange (c : s.Consistent) (applies : ev.Applies s r) :
    (s.replayChange ev).Consistent := by
  obtain ⟨rs, present⟩ := Option.isSome_iff_exists.mp applies.present
  have table := replayChange_getResource (s := s) applies.routed
  simp only [present, Option.map_some] at table
  exact c.replaceOne present table (replayChange_getParent ev) (replayChange_getChildren ev)
    (ResourceState.applySingle_parentId ev) (c.indexed.replayChange applies)

theorem Event.Applies.after {a b : Event} {q : Ulid} (first : a.Applies s r)
    (second : b.Applies s q) (apart : a.Independent b) : b.Applies (s.replayChange a) q := by
  obtain ⟨rs, present⟩ := Option.isSome_iff_exists.mp first.present
  have untouched : ∀ x ∈ b.touches, (s.replayChange a).getResourceForEntity x = s.getResourceForEntity x := by
    intro x touched
    have notHere : x ∉ a.touches := apart.symm x touched
    rw [Event.mem_touches, not_or] at notHere
    rw [replayChange_getResourceForEntity first.routed present, if_neg notHere.2, if_neg notHere.1]
  refine ⟨second.routed, ?_, ?_, second.admitted, ?_, second.fields⟩
  · rw [replayChange_getResource first.routed]
    split
    · rw [Option.isSome_map]; exact first.present
    · exact second.present
  · intro x removed
    rw [untouched x (Event.mem_touches.mpr (.inl removed))]
    exact second.removes x removed
  · intro i added
    rw [untouched i.id (Event.mem_touches.mpr (.inr (by rw [added]; rfl)))]
    exact second.fresh i added

/-- Independent changes that all apply to the store. -/
structure AllApply (s : InMemoryStore) (changes : List Event) : Prop where
  applies : ∀ ev ∈ changes, ∃ r, ev.Applies s r
  apart : changes.Pairwise Event.Independent

theorem AllApply.perm {changes changes' : List Event} (h : s.AllApply changes) (same : changes.Perm changes') :
    s.AllApply changes' :=
  ⟨fun ev inside => h.applies ev (same.mem_iff.mpr inside),
    same.pairwise h.apart fun independent => independent.symm⟩

def replayChanges (s : InMemoryStore) (changes : List Event) : InMemoryStore :=
  changes.foldl replayChange s

/-- The first of the changes applies, and after it the others still do. -/
theorem AllApply.cons {changes : List Event} (all : s.AllApply (ev :: changes)) :
    ∃ r, ev.Applies s r ∧ (s.replayChange ev).AllApply changes := by
  obtain ⟨r, applies⟩ := all.applies ev List.mem_cons_self
  obtain ⟨first, apart⟩ := List.pairwise_cons.mp all.apart
  refine ⟨r, applies, fun b inRest => ?_, apart⟩
  obtain ⟨q, later⟩ := all.applies b (List.mem_cons_of_mem _ inRest)
  exact ⟨q, Event.Applies.after applies later (first b inRest)⟩

theorem Indexed.replayChanges {changes : List Event} :
    ∀ {s : InMemoryStore}, s.Indexed → s.AllApply changes → (s.replayChanges changes).Indexed := by
  induction changes with
  | nil => exact fun c _ => c
  | cons ev rest ih =>
      intro s c all
      obtain ⟨r, applies, later⟩ := all.cons
      exact ih (c.replayChange applies) later

theorem Consistent.replayChanges {changes : List Event} :
    ∀ {s : InMemoryStore}, s.Consistent → s.AllApply changes → (s.replayChanges changes).Consistent := by
  induction changes with
  | nil => exact fun c _ => c
  | cons ev rest ih =>
      intro s c all
      obtain ⟨r, applies, later⟩ := all.cons
      exact ih (c.replayChange applies) later

/-- The table entry of a resource after changes is its own changes folded over it. -/
theorem replayChanges_getResource (changes : List Event) (x : Ulid) : ∀ s : InMemoryStore,
    (s.replayChanges changes).getResource x =
      (s.getResource x).map ((changes.filter (·.resourceId? = some x)).foldl ResourceState.applySingle) := by
  induction changes with
  | nil => intro s; simp [InMemoryStore.replayChanges]
  | cons ev rest ih =>
      intro s
      change ((s.replayChange ev).replayChanges rest).getResource x = _
      rw [ih]
      cases routed : ev.resourceId? with
      | none => simp [InMemoryStore.replayChange, routed]
      | some r =>
          rw [replayChange_getResource routed]
          by_cases same : x = r
          · subst same
            rw [if_pos rfl, Option.map_map, List.filter_cons_of_pos (by simpa using routed)]
            rfl
          · have other : ev.resourceId? ≠ some x := by
              rw [routed]; exact fun h => same (Option.some.inj h).symm
            rw [if_neg same, List.filter_cons_of_neg (by simpa using other)]

theorem replayChanges_getParent (changes : List Event) (x : Ulid) : ∀ s : InMemoryStore,
    (s.replayChanges changes).getParent x = s.getParent x := by
  induction changes with
  | nil => exact fun _ => rfl
  | cons ev rest ih => exact fun s => (ih _).trans (replayChange_getParent ev x)

theorem replayChanges_getChildren (changes : List Event) (x : Ulid) : ∀ s : InMemoryStore,
    (s.replayChanges changes).getChildren x = s.getChildren x := by
  induction changes with
  | nil => exact fun _ => rfl
  | cons ev rest ih => exact fun s => (ih _).trans (replayChange_getChildren ev x)

end InMemoryStore

end Deltat
