import Deltat.Runs
import Deltat.Tables

/-! # What records do to the tables

Changes that apply to the store drop the rows whose ids they remove and add the rows that show what they
add. Every table's INSERT, UPDATE and DELETE is such a set of rows dropped and added.
-/

namespace Deltat

open Lib Lib.Outcome Lib.Conversations

section Rows

variable {r q : Ulid} {i j : Interval}

@[simp] theorem Interval.entry_id : (i.entry r).id = i.id := by
  unfold Interval.entry
  split <;> rfl

@[simp] theorem Interval.entry_resourceId : (i.entry r).resourceId = r := by
  unfold Interval.entry
  split <;> rfl

/-- A row shows one interval. -/
theorem Interval.entry_injective (same : i.entry r = j.entry q) : r = q ∧ i = j := by
  obtain ⟨id, span, kind⟩ := i
  obtain ⟨id', span', kind'⟩ := j
  obtain ⟨start, stop⟩ := span
  obtain ⟨start', stop'⟩ := span'
  cases kind <;> cases kind' <;> simp_all [Interval.entry]

end Rows

namespace InMemoryStore

section View

variable {s s' : InMemoryStore} {ev : Event} {r q : Ulid} {i j : Interval}

theorem entries_congr (same : ∀ r i, s'.Has r i ↔ s.Has r i) : s'.tables.entries = s.tables.entries := by
  simp only [tables, same]

theorem resourceInfo_some {rs : ResourceState} (present : s.getResource r = some rs) :
    s.resourceInfo r = some ⟨rs.id, rs.parentId, rs.name, rs.capacity, rs.bufferAfter⟩ := by
  rw [resourceInfo, present]
  rfl

theorem Indexed.has_mapped (c : s.Indexed) (has : s.Has r i) : s.getResourceForEntity i.id = some r := by
  obtain ⟨rs, present, inside⟩ := has
  exact (c.entities i.id r).mpr ⟨rs, present, List.mem_map_of_mem inside⟩

/-- An id is that of one interval. -/
theorem Indexed.has_unique (c : s.Indexed) (first : s.Has r i) (second : s.Has q j) (same : i.id = j.id) : r = q ∧ i = j := by
  have here := c.has_mapped first
  rw [same, c.has_mapped second] at here
  cases here
  obtain ⟨rs, present, inside⟩ := first
  obtain ⟨rs', present', inside'⟩ := second
  rw [present] at present'
  cases present'
  exact ⟨rfl, List.inj_on_of_nodup_map (c.wellFormed _ rs present).idsNodup inside inside' same⟩

/-- The intervals after a change that applies. -/
theorem Indexed.has_replayChange (c : s.Indexed) (applies : ev.Applies s r) :
    (s.replayChange ev).Has q i ↔ (ev.resourceId? = some q ∧ ev.adds = some i) ∨ (s.Has q i ∧ ev.removes ≠ some i.id) := by
  obtain ⟨rs, present⟩ := Option.isSome_iff_exists.mp applies.present
  unfold Has
  rw [replayChange_getResource applies.routed, applies.routed]
  by_cases here : q = r
  · subst here
    have perm := ResourceState.applySingle_perm (c.wellFormed q rs present).idsNodup ev
    simp only [if_true, present, Option.map_some, Option.some.injEq, exists_eq_left', true_and, perm.mem_iff, List.mem_append,
      Option.mem_toList, List.mem_filter, decide_eq_true_eq]
    exact or_congr Iff.rfl (and_congr Iff.rfl ne_comm)
  · rw [if_neg here]
    constructor
    · intro has
      have mapped := c.has_mapped has
      exact .inr ⟨has, (Event.Applies.untouched applies here mapped).2⟩
    · intro has
      cases has with
      | inl added => exact absurd (Option.some.inj added.1).symm here
      | inr kept => exact kept.1

/-- The intervals after changes that all apply: those that none removes, and those that one adds. -/
theorem Indexed.has_replayChanges {changes : List Event} (c : s.Indexed) (all : s.AllApply changes) :
    (s.replayChanges changes).Has q i ↔ (∃ ev ∈ changes, ev.resourceId? = some q ∧ ev.adds = some i) ∨
      (s.Has q i ∧ ∀ ev ∈ changes, ev.removes ≠ some i.id) := by
  induction changes generalizing s with
  | nil => simp [InMemoryStore.replayChanges]
  | cons ev rest ih =>
      obtain ⟨r, applies, later⟩ := all.cons
      have apart := (List.pairwise_cons.mp all.apart).1
      change ((s.replayChange ev).replayChanges rest).Has q i ↔ _
      rw [ih (c.replayChange applies) later, c.has_replayChange applies]
      simp only [List.mem_cons, exists_eq_or_imp, forall_eq_or_imp]
      constructor
      · intro has
        rcases has with added | ⟨added | ⟨has, kept⟩, others⟩
        · exact .inl (.inr added)
        · exact .inl (.inl added)
        · exact .inr ⟨has, kept, others⟩
      · intro has
        rcases has with (added | added) | ⟨has, kept, others⟩
        · refine .inr ⟨.inl added, fun other inside removed => ?_⟩
          -- No other change is about what this one adds.
          apply apart other inside i.id
          · exact Event.mem_touches.mpr (.inr (by rw [added.2]; rfl))
          · exact Event.mem_touches.mpr (.inl removed)
        · exact .inl added
        · exact .inr ⟨.inr ⟨has, kept⟩, others⟩

end View

end InMemoryStore

namespace Engine

section Writes

variable {e e' : Engine} {records : List Event} {r : Ulid} {i : Interval}

/-- The intervals after a write of changes. -/
theorem Wrote.has (wrote : e.Wrote e' records) (h : e.Healthy) (all : e.store.AllApply (records.flatMap Event.perResource))
    (changes : ∀ ev ∈ records, ev.isChange) :
    e'.store.Has r i ↔ (∃ ev ∈ records.flatMap Event.perResource, ev.resourceId? = some r ∧ ev.adds = some i) ∨
      (e.store.Has r i ∧ ∀ ev ∈ records.flatMap Event.perResource, ev.removes ≠ some i.id) := by
  rw [← h.consistent.indexed.has_replayChanges all]
  unfold InMemoryStore.Has
  rw [wrote.table, Event.foldl_stepOn r changes, InMemoryStore.replayChanges_getResource]

/-- The rows after a write of changes that adds the rows `added` and removes those of the ids `removed`. -/
theorem Wrote.entries (wrote : e.Wrote e' records) (h : e.Healthy) (all : e.store.AllApply (records.flatMap Event.perResource))
    (changes : ∀ ev ∈ records, ev.isChange) (added : Set TableRow) (removed : Set Ulid)
    (adds : ∀ row, row ∈ added ↔ ∃ ev ∈ records.flatMap Event.perResource, ∃ r i, ev.resourceId? = some r ∧
      ev.adds = some i ∧ i.entry r = row)
    (removes : ∀ id, id ∈ removed ↔ ∃ ev ∈ records.flatMap Event.perResource, ev.removes = some id) :
    e'.store.tables.entries = {row ∈ e.store.tables.entries | row.id ∉ removed} ∪ added := by
  ext row
  constructor
  · intro given
    obtain ⟨r, i, has, shown⟩ := given
    cases (wrote.has h all changes).mp has with
    | inl new =>
        obtain ⟨ev, inside, routed, adding⟩ := new
        exact .inr ((adds row).mpr ⟨ev, inside, r, i, routed, adding, shown⟩)
    | inr kept =>
        refine .inl ⟨⟨r, i, kept.1, shown⟩, fun gone => ?_⟩
        obtain ⟨ev, inside, removing⟩ := (removes row.id).mp gone
        rw [← shown, Interval.entry_id] at removing
        exact kept.2 ev inside removing
  · intro after
    cases after with
    | inl kept =>
        obtain ⟨⟨r, i, has, rfl⟩, stays⟩ := kept
        refine ⟨r, i, (wrote.has h all changes).mpr (.inr ⟨has, fun ev inside removing => stays ?_⟩), rfl⟩
        rw [Interval.entry_id]
        exact (removes i.id).mpr ⟨ev, inside, removing⟩
    | inr new =>
        obtain ⟨ev, inside, r, i, routed, adding, shown⟩ := (adds row).mp new
        exact ⟨r, i, (wrote.has h all changes).mpr (.inl ⟨ev, inside, routed, adding⟩), shown⟩

/-- Changes that set no field leave the rows of resources alone. -/
theorem Wrote.resources (wrote : e.Wrote e' records) (changes : ∀ ev ∈ records, ev.isChange)
    (fields : ∀ ev ∈ records.flatMap Event.perResource, ∀ rs, ev.setFields rs = rs) :
    e'.store.tables.resources = e.store.tables.resources := by
  have same : ∀ (changes : List Event) (rs : ResourceState), (∀ ev ∈ changes, ∀ rs, ev.setFields rs = rs) →
      (⟨(changes.foldl ResourceState.applySingle rs).id, (changes.foldl ResourceState.applySingle rs).parentId,
        (changes.foldl ResourceState.applySingle rs).name, (changes.foldl ResourceState.applySingle rs).capacity,
        (changes.foldl ResourceState.applySingle rs).bufferAfter⟩ : ResourceInfo) =
        ⟨rs.id, rs.parentId, rs.name, rs.capacity, rs.bufferAfter⟩ := by
    intro changes
    induction changes with
    | nil => exact fun _ _ => rfl
    | cons ev rest ih =>
        intro rs alone
        rw [List.foldl_cons, ih _ fun other inside => alone other (List.mem_cons_of_mem _ inside)]
        have kept := ResourceState.applySingle_fields rs ev
        rw [alone ev List.mem_cons_self] at kept
        rw [ResourceState.applySingle_id, ResourceState.applySingle_parentId, kept.1, kept.2.1, kept.2.2]
  have infos : ∀ r, e'.store.resourceInfo r = e.store.resourceInfo r := by
    intro r
    unfold InMemoryStore.resourceInfo
    rw [wrote.table, Event.foldl_stepOn r changes]
    cases e.store.getResource r with
    | none => rfl
    | some rs =>
        simp only [Option.map_some, Option.some.injEq]
        exact same _ rs fun ev inside => fields ev (List.mem_filter.mp inside).1
  simp only [InMemoryStore.tables, infos]

/-- A change that adds or removes an interval sets no field. -/
theorem setFields_self {ev : Event} (moves : ev.adds ≠ none ∨ ev.removes ≠ none) (rs : ResourceState) :
    ev.setFields rs = rs := by
  cases ev with
  | resourceUpdated => simp [Event.adds, Event.removes] at moves
  | _ => rfl

/-- A write of changes that all add or remove intervals. -/
theorem Wrote.tables (wrote : e.Wrote e' records) (h : e.Healthy) (all : e.store.AllApply (records.flatMap Event.perResource))
    (changes : ∀ ev ∈ records, ev.isChange) (added : Set TableRow) (removed : Set Ulid)
    (moves : ∀ ev ∈ records.flatMap Event.perResource, ev.adds ≠ none ∨ ev.removes ≠ none)
    (adds : ∀ row, row ∈ added ↔ ∃ ev ∈ records.flatMap Event.perResource, ∃ r i, ev.resourceId? = some r ∧
      ev.adds = some i ∧ i.entry r = row)
    (removes : ∀ id, id ∈ removed ↔ ∃ ev ∈ records.flatMap Event.perResource, ev.removes = some id) :
    e'.store.tables = ⟨e.store.tables.resources, {row ∈ e.store.tables.entries | row.id ∉ removed} ∪ added⟩ := by
  rw [← wrote.entries h all changes added removed adds removes,
    ← wrote.resources changes fun ev inside => setFields_self (moves ev inside)]

/-- A batch of additions inserts a row for each. -/
theorem Wrote.inserts {α : Type} {members : List α} {mk : α → Event} {rid : α → Ulid} {made : α → Interval}
    (wrote : e.Wrote e' (members.map mk)) (h : e.Healthy)
    (all : e.store.AllApply ((members.map mk).flatMap Event.perResource)) (change : ∀ m, (mk m).isChange)
    (routed : ∀ m, (mk m).resourceId? = some (rid m)) (adds : ∀ m, (mk m).adds = some (made m))
    (removes : ∀ m, (mk m).removes = none) :
    e'.store.tables = Change.on e.store.tables (.insert (members.map fun m => (made m).entry (rid m))) := by
  have single := @perResource_batch α members mk fun m => Event.perResource_single (routed m)
  rw [wrote.tables h all (List.forall_mem_map.mpr fun m _ => change m)
    {row | row ∈ members.map fun m => (made m).entry (rid m)} ∅]
  · simp [Change.on]
  · rw [single]
    exact List.forall_mem_map.mpr fun m _ => .inl (by simp [adds m])
  · intro row
    rw [single]
    simp [routed, adds]
  · intro id
    rw [single]
    simp [removes]

/-- One addition inserts its row. -/
theorem Wrote.insertsOne {ev : Event} (wrote : e.Wrote e' [ev]) (h : e.Healthy) (admits : e.Admits [ev]) (change : ev.isChange)
    (routed : ev.resourceId? = some r) (adds : ev.adds = some i) (removes : ev.removes = none) :
    e'.store.tables = Change.on e.store.tables (.insert [i.entry r]) :=
  @Wrote.inserts e e' Unit [()] (fun _ => ev) (fun _ => r) (fun _ => i) wrote h
    (admits.allApply h (List.forall_mem_singleton.mpr change)) (fun _ => change) (fun _ => routed) (fun _ => adds) (fun _ => removes)

/-- A removal of an interval deletes its row from the table it is in. -/
theorem Wrote.deletes {ev : Event} {id : Ulid} (wrote : e.Wrote e' [ev]) (h : e.Healthy) (admits : e.Admits [ev])
    (change : ev.isChange) (routed : ev.resourceId? = some r) (adds : ev.adds = none) (removes : ev.removes = some id)
    (has : e.store.Has r i) (same : i.id = id) :
    e'.store.tables = Change.on e.store.tables (.delete (i.entry r).table id) := by
  have single : [ev].flatMap Event.perResource = [ev] := by rw [List.flatMap_singleton, Event.perResource_single routed]
  have only : ∀ ev' ∈ [ev], ev'.isChange := List.forall_mem_singleton.mpr change
  rw [wrote.tables h (admits.allApply h only) only ∅ {id}]
  · rw [Set.union_empty]
    apply congrArg (Tables.mk e.store.tables.resources)
    ext row
    constructor
    · intro kept
      exact ⟨kept.1, fun here => kept.2 here.2⟩
    · intro kept
      refine ⟨kept.1, fun here => kept.2 ⟨?_, here⟩⟩
      obtain ⟨q, j, other, rfl⟩ := kept.1
      rw [Set.mem_singleton_iff, Interval.entry_id] at here
      obtain ⟨rfl, rfl⟩ := h.consistent.indexed.has_unique other has (here.trans same.symm)
      rfl
  · rw [single]
    exact List.forall_mem_singleton.mpr (.inr (by simp [removes]))
  · intro row
    rw [single]
    simp [adds]
  · intro x
    rw [single]
    simp [removes, eq_comm]

/-- A write that adds what it makes of the rows it removes rewrites those rows. -/
theorem Wrote.rewrites (wrote : e.Wrote e' records) (h : e.Healthy) (admits : e.Admits records)
    (changes : ∀ ev ∈ records, ev.isChange) (f : TableRow → TableRow) (removed : Set Ulid)
    (moves : ∀ ev ∈ records.flatMap Event.perResource, ev.adds ≠ none ∨ ev.removes ≠ none)
    (adds : ∀ row, (∃ before ∈ e.store.tables.entries, before.id ∈ removed ∧ f before = row) ↔
      ∃ ev ∈ records.flatMap Event.perResource, ∃ r i, ev.resourceId? = some r ∧ ev.adds = some i ∧ i.entry r = row)
    (removes : ∀ id, id ∈ removed ↔ ∃ ev ∈ records.flatMap Event.perResource, ev.removes = some id)
    (others : ∀ row : TableRow, row.id ∉ removed → f row = row) :
    e'.store.tables = { e.store.tables with entries := Set.image f e.store.tables.entries } := by
  rw [image_rewrites fun row _ apart => others row apart]
  exact wrote.tables h (admits.allApply h changes) changes _ removed moves adds removes

/-- The row that shows a rule. -/
theorem entry_rule (rid id : Ulid) (span : Span) (blocking : Bool) :
    Interval.entry rid ⟨id, span, .ofBlocking blocking⟩ = .rule ⟨id, rid, span.start, span.end, blocking⟩ := by
  cases blocking <;> rfl

/-- An update of a rule rewrites its row. -/
theorem Wrote.updatesRule {rid id : Ulid} {span : Span} {blocking : Bool} (wrote : e.Wrote e' [.ruleUpdated id rid span blocking])
    (h : e.Healthy) (admits : e.Admits [.ruleUpdated id rid span blocking]) (has : e.store.Has rid i) (same : i.id = id)
    (isRule : i.kind.isRule = true) :
    e'.store.tables = Change.on e.store.tables (.updateRule id span.start span.end blocking) := by
  obtain ⟨own, within, kind⟩ := i
  cases same
  have rewritten : TableRow.setRule own span.start span.end blocking (Interval.entry rid ⟨own, within, kind⟩) =
      .rule ⟨own, rid, span.start, span.end, blocking⟩ := by
    cases kind with
    | nonBlocking | blocking => exact if_pos rfl
    | hold | booking => cases isRule
  apply wrote.rewrites h admits (List.forall_mem_singleton.mpr rfl) _ {own}
  · exact List.forall_mem_singleton.mpr (.inr (by simp [Event.removes]))
  · intro row
    have adding : (∃ ev ∈ [Event.ruleUpdated own rid span blocking].flatMap Event.perResource, ∃ r i, ev.resourceId? = some r ∧
        ev.adds = some i ∧ i.entry r = row) ↔ .rule ⟨own, rid, span.start, span.end, blocking⟩ = row := by
      simp [Event.perResource, Event.resourceId?, Event.adds, entry_rule]
    rw [adding]
    constructor
    · intro given
      obtain ⟨before, ⟨q, j, other, shown⟩, here, becomes⟩ := given
      rw [← shown, Set.mem_singleton_iff, Interval.entry_id] at here
      obtain ⟨rfl, rfl⟩ := h.consistent.indexed.has_unique other has here
      rw [← shown, rewritten] at becomes
      exact becomes
    · intro new
      exact ⟨_, ⟨rid, _, has, rfl⟩, Interval.entry_id, rewritten.trans new⟩
  · intro x
    simp [Event.perResource, Event.removes, eq_comm]
  · intro row apart
    cases row with
    | rule row => exact if_neg apart
    | hold | booking => rfl

/-- The rows of a commit as it was asked for. -/
def commitRows (entries : List HoldCommit) : List CommitRow := entries.map fun c => ⟨c.holdId, c.bookingId, c.label⟩

/-- The booking that an entry of a commit makes. -/
def bookingMade (c : HoldCommit) : TableRow := .booking ⟨c.bookingId, c.resourceId, c.span.start, c.span.end, c.label⟩

theorem commit_hold {entries : List HoldCommit} (nodup : (entries.map (·.holdId)).Nodup) {c : HoldCommit} (inside : c ∈ entries)
    (expiresAt : Ms) :
    TableRow.commit (commitRows entries) (Interval.entry c.resourceId ⟨c.holdId, c.span, .hold expiresAt⟩) = bookingMade c := by
  have found : (commitRows entries).find? (·.holdId = c.holdId) = some ⟨c.holdId, c.bookingId, c.label⟩ := by
    unfold commitRows
    induction entries with
    | nil => cases inside
    | cons first rest ih =>
        obtain ⟨notAgain, nodup⟩ := List.nodup_cons.mp nodup
        rw [List.map_cons]
        cases List.mem_cons.mp inside with
        | inl here =>
            cases here
            exact List.find?_cons_of_pos (by simp)
        | inr later =>
            have apart : first.holdId ≠ c.holdId := fun same => notAgain (List.mem_map.mpr ⟨c, later, same.symm⟩)
            rw [List.find?_cons_of_neg (by simpa using apart), ih nodup later]
  simp only [TableRow.commit, Interval.entry, found]
  rfl

theorem commit_other {entries : List HoldCommit} {row : TableRow} (apart : ¬ ∃ c ∈ entries, c.holdId = row.id) :
    TableRow.commit (commitRows entries) row = row := by
  cases row with
  | hold row =>
      have none : (commitRows entries).find? (·.holdId = row.id) = none := by
        rw [List.find?_eq_none]
        intro c inside same
        obtain ⟨entry, member, rfl⟩ := List.mem_map.mp inside
        exact apart ⟨entry, member, of_decide_eq_true same⟩
      simp only [TableRow.commit, none]
      rfl
  | rule | booking => rfl

/-- What the changes of a commit add. -/
theorem commit_adds {entries : List HoldCommit} {row : TableRow} :
    (∃ ev ∈ entries.flatMap HoldCommit.events, ∃ r i, ev.resourceId? = some r ∧ ev.adds = some i ∧ i.entry r = row) ↔
      ∃ c ∈ entries, bookingMade c = row := by
  constructor
  · intro given
    obtain ⟨ev, inside, r, i, routed, adds, shown⟩ := given
    obtain ⟨c, member, isEvent⟩ := List.mem_flatMap.mp inside
    simp only [HoldCommit.events, List.mem_cons, List.not_mem_nil, or_false] at isEvent
    cases isEvent with
    | inl released =>
        rw [released] at adds
        cases adds
    | inr confirmed =>
        rw [confirmed] at adds routed
        cases adds
        cases routed
        exact ⟨c, member, shown⟩
  · intro given
    obtain ⟨c, member, shown⟩ := given
    exact ⟨_, List.mem_flatMap.mpr ⟨c, member, List.mem_cons_of_mem _ List.mem_cons_self⟩, _, _, rfl, rfl, shown⟩

theorem commit_removes {entries : List HoldCommit} {x : Ulid} :
    (∃ c ∈ entries, c.holdId = x) ↔ ∃ ev ∈ entries.flatMap HoldCommit.events, ev.removes = some x := by
  constructor
  · intro given
    obtain ⟨c, member, same⟩ := given
    exact ⟨_, List.mem_flatMap.mpr ⟨c, member, List.mem_cons_self⟩, congrArg some same⟩
  · intro given
    obtain ⟨ev, inside, removes⟩ := given
    obtain ⟨c, member, isEvent⟩ := List.mem_flatMap.mp inside
    simp only [HoldCommit.events, List.mem_cons, List.not_mem_nil, or_false] at isEvent
    cases isEvent with
    | inl released =>
        rw [released] at removes
        exact ⟨c, member, Option.some.inj removes⟩
    | inr confirmed =>
        rw [confirmed] at removes
        cases removes

/-- A commit makes a booking of every hold that it names. -/
theorem Wrote.commits {entries : List HoldCommit} (wrote : e.Wrote e' [.holdsCommitted entries]) (h : e.Healthy)
    (admits : e.Admits [.holdsCommitted entries]) (admitted : e.AdmittedCommits entries) :
    e'.store.tables = Change.on e.store.tables (.commit (commitRows entries)) := by
  have changes : [Event.holdsCommitted entries].flatMap Event.perResource = entries.flatMap HoldCommit.events :=
    List.flatMap_singleton _ _
  have held : ∀ c ∈ entries, ∃ expiresAt, e.store.Has c.resourceId ⟨c.holdId, c.span, .hold expiresAt⟩ := by
    intro c inside
    obtain ⟨guard, hold, present, found, _, _, same⟩ := admitted.admitted c inside
    obtain ⟨here, own, isHold⟩ := findIntervalOfKind_mem found
    have span : c.span = hold.span := by rw [same]
    obtain ⟨id, within, kind⟩ := hold
    cases kind with
    | hold expiresAt =>
        cases own
        exact ⟨expiresAt, guard, present, span ▸ here⟩
    | nonBlocking | blocking | booking => cases isHold
  apply wrote.rewrites h admits (List.forall_mem_singleton.mpr rfl) _ {id | ∃ c ∈ entries, c.holdId = id}
  · rw [changes]
    intro ev inside
    obtain ⟨c, _, isEvent⟩ := List.mem_flatMap.mp inside
    simp only [HoldCommit.events, List.mem_cons, List.not_mem_nil, or_false] at isEvent
    cases isEvent with
    | inl same => exact .inr (by simp [same, Event.removes])
    | inr same => exact .inl (by simp [same, Event.adds])
  · intro row
    rw [changes, commit_adds]
    constructor
    · intro given
      obtain ⟨before, ⟨q, j, other, shown⟩, ⟨c, inside, here⟩, becomes⟩ := given
      obtain ⟨expiresAt, has⟩ := held c inside
      rw [← shown, Interval.entry_id] at here
      obtain ⟨rfl, rfl⟩ := h.consistent.indexed.has_unique other has here.symm
      rw [← shown, commit_hold admitted.holdsNodup inside expiresAt] at becomes
      exact ⟨c, inside, becomes⟩
    · intro given
      obtain ⟨c, inside, made⟩ := given
      obtain ⟨expiresAt, has⟩ := held c inside
      exact ⟨_, ⟨c.resourceId, _, has, rfl⟩, ⟨c, inside, rfl⟩,
        (commit_hold admitted.holdsNodup inside expiresAt).trans made⟩
  · intro x
    rw [changes]
    exact commit_removes
  · exact fun row => commit_other

/-! ## Resources -/

/-- A created resource is a new row, with nothing on it. -/
theorem Wrote.creates {id : Ulid} {parentId : Option Ulid} {name : Option String} {capacity : UInt32} {bufferAfter : Option Ms}
    (wrote : e.Wrote e' [.resourceCreated id parentId name capacity bufferAfter]) (absent : e.store.getResource id = none) :
    e'.store.tables = Change.on e.store.tables (.insertResource ⟨id, parentId, name, capacity, bufferAfter⟩) := by
  have table : ∀ r, e'.store.getResource r =
      if id = r then some (.new id parentId name capacity bufferAfter) else e.store.getResource r := wrote.table
  have resources : e'.store.tables.resources =
      Set.insert ⟨id, parentId, name, capacity, bufferAfter⟩ e.store.tables.resources := by
    ext row
    constructor
    · intro given
      obtain ⟨r, shown⟩ := given
      rw [InMemoryStore.resourceInfo, table] at shown
      by_cases here : id = r
      · rw [if_pos here] at shown
        exact .inl (Option.some.inj shown).symm
      · rw [if_neg here] at shown
        exact .inr ⟨r, shown⟩
    · intro inside
      cases inside with
      | inl new =>
          refine ⟨id, ?_⟩
          rw [InMemoryStore.resourceInfo, table, if_pos rfl, new]
          rfl
      | inr old =>
          obtain ⟨r, shown⟩ := old
          refine ⟨r, ?_⟩
          rw [InMemoryStore.resourceInfo, table, if_neg]
          · exact shown
          · intro same
            rw [InMemoryStore.resourceInfo, ← same, absent] at shown
            cases shown
  have has : ∀ r i, e'.store.Has r i ↔ e.store.Has r i := by
    intro r i
    unfold InMemoryStore.Has
    rw [table]
    by_cases here : id = r
    · rw [if_pos here, ← here, absent]
      simp [ResourceState.new]
    · rw [if_neg here]
  exact congrArg₂ Tables.mk resources (InMemoryStore.entries_congr has)

/-- A deleted resource goes with its rows. -/
theorem Wrote.deletesResource {id : Ulid} (wrote : e.Wrote e' [.resourceDeleted id]) (h : e.Healthy) :
    e'.store.tables = Change.on e.store.tables (.deleteResource id) := by
  have table : ∀ r, e'.store.getResource r = if id = r then none else e.store.getResource r := wrote.table
  have resources : e'.store.tables.resources = {row ∈ e.store.tables.resources | row.id ≠ id} := by
    ext row
    constructor
    · intro given
      obtain ⟨r, shown⟩ := given
      rw [InMemoryStore.resourceInfo, table] at shown
      by_cases here : id = r
      · rw [if_pos here] at shown
        cases shown
      · rw [if_neg here] at shown
        refine ⟨⟨r, shown⟩, fun same => here ?_⟩
        obtain ⟨rs, present, rfl⟩ := Option.map_eq_some_iff.mp shown
        exact same.symm.trans (h.consistent.ids r rs present)
    · intro given
      obtain ⟨⟨r, shown⟩, apart⟩ := given
      obtain ⟨rs, present, rfl⟩ := Option.map_eq_some_iff.mp shown
      refine ⟨r, ?_⟩
      rw [InMemoryStore.resourceInfo, table, if_neg, present]
      · rfl
      · exact fun same => apart ((h.consistent.ids r rs present).trans same.symm)
  have entries : e'.store.tables.entries = {row ∈ e.store.tables.entries | row.resourceId ≠ id} := by
    ext row
    constructor
    · intro given
      obtain ⟨r, i, ⟨rs, present, inside⟩, shown⟩ := given
      rw [table] at present
      by_cases here : id = r
      · rw [if_pos here] at present
        cases present
      · rw [if_neg here] at present
        refine ⟨⟨r, i, ⟨rs, present, inside⟩, shown⟩, ?_⟩
        rw [← shown, Interval.entry_resourceId]
        exact Ne.symm here
    · intro given
      obtain ⟨⟨r, i, ⟨rs, present, inside⟩, shown⟩, apart⟩ := given
      rw [← shown, Interval.entry_resourceId] at apart
      exact ⟨r, i, ⟨rs, by rw [table, if_neg (Ne.symm apart), present], inside⟩, shown⟩
  exact congrArg₂ Tables.mk resources entries

/-- An update of a resource rewrites its row. -/
theorem Wrote.updatesResource {id : Ulid} {changes : ResourceChanges}
    (wrote : e.Wrote e' [.resourceUpdated id changes.name (changes.capacity.map .ofNat) changes.bufferAfter]) (h : e.Healthy) :
    e'.store.tables = Change.on e.store.tables (.updateResource id changes) := by
  have table : ∀ r, e'.store.getResource r = (e.store.getResource r).map fun rs => if id = r then
      rs.applySingle (.resourceUpdated id changes.name (changes.capacity.map .ofNat) changes.bufferAfter) else rs := by
    intro r
    rw [wrote.table, List.foldl_cons, List.foldl_nil, Event.stepOn_change rfl]
    congr 1
    funext rs
    by_cases here : id = r <;> simp [Event.changesOn, Event.perResource, Event.resourceId?, here]
  have infos : ∀ r, e'.store.resourceInfo r = (e.store.resourceInfo r).map (changes.set id) := by
    intro r
    rw [InMemoryStore.resourceInfo, InMemoryStore.resourceInfo, table]
    cases present : e.store.getResource r with
    | none => rfl
    | some rs =>
        have own := h.consistent.ids r rs present
        simp only [Option.map_some, Option.some.injEq, ResourceChanges.set]
        by_cases here : id = r
        · rw [if_pos here, if_pos (own.trans here.symm)]
          rfl
        · rw [if_neg here, if_neg fun same => here (same.symm.trans own)]
  have resources : e'.store.tables.resources = Set.image (changes.set id) e.store.tables.resources := by
    ext row
    constructor
    · intro given
      obtain ⟨r, shown⟩ := given
      rw [infos] at shown
      obtain ⟨before, here, becomes⟩ := Option.map_eq_some_iff.mp shown
      exact ⟨before, ⟨r, here⟩, becomes⟩
    · intro given
      obtain ⟨before, ⟨r, here⟩, becomes⟩ := given
      refine ⟨r, ?_⟩
      rw [infos, here, ← becomes]
      rfl
  have has : ∀ r i, e'.store.Has r i ↔ e.store.Has r i := by
    intro r i
    unfold InMemoryStore.Has
    rw [table]
    cases e.store.getResource r with
    | none => simp
    | some rs => by_cases here : id = r <;> simp [here, ResourceState.applySingle]
  exact congrArg₂ Tables.mk resources (InMemoryStore.entries_congr has)

end Writes

/-- Garbage collection drops the rows that are past. -/
theorem gc_tables {e : Engine} (h : e.Healthy) (now retentionMs : Ms) :
    (e.gcPastIntervals now retentionMs).store.tables = Change.on e.store.tables (.collect now (satSub now retentionMs)) := by
  have table := gc_getResource h now retentionMs
  have infos : ∀ r, (e.gcPastIntervals now retentionMs).store.resourceInfo r = e.store.resourceInfo r := by
    intro r
    rw [InMemoryStore.resourceInfo, InMemoryStore.resourceInfo, table, Option.map_map]
    rfl
  have past : ∀ (r : Ulid) (i : Interval) (buffer : Ms), dominated now (satSub now retentionMs) buffer i = true ↔
      (i.entry r).Past now (satSub now retentionMs) buffer := by
    intro r i buffer
    obtain ⟨id, span, kind⟩ := i
    cases kind <;> simp [dominated, Interval.entry, TableRow.Past]
  have resources : (e.gcPastIntervals now retentionMs).store.tables.resources = e.store.tables.resources := by
    simp only [InMemoryStore.tables, infos]
  have entries : (e.gcPastIntervals now retentionMs).store.tables.entries =
      (Change.on e.store.tables (.collect now (satSub now retentionMs))).entries := by
    ext row
    constructor
    · intro given
      obtain ⟨r, i, ⟨rs, present, inside⟩, shown⟩ := given
      rw [table] at present
      obtain ⟨before, here, rfl⟩ := Option.map_eq_some_iff.mp present
      obtain ⟨inside, kept⟩ := List.mem_filter.mp inside
      refine ⟨⟨r, i, ⟨before, here, inside⟩, shown⟩, ?_⟩
      intro resource listed same gone
      obtain ⟨q, info⟩ := listed
      obtain ⟨rs, listed, rfl⟩ := Option.map_eq_some_iff.mp info
      rw [← shown, Interval.entry_resourceId, h.consistent.ids q rs listed] at same
      subst same
      obtain rfl : rs = before := Option.some.inj (listed.symm.trans here)
      rw [← shown] at gone
      have dropped : dominated now (satSub now retentionMs) rs.buffer i = true := (past q i _).mpr gone
      rw [dropped] at kept
      cases kept
    · intro given
      obtain ⟨⟨r, i, ⟨rs, present, inside⟩, shown⟩, kept⟩ := given
      refine ⟨r, i, ⟨rs.collected now (satSub now retentionMs), by rw [table, present]; rfl, ?_⟩, shown⟩
      refine List.mem_filter.mpr ⟨inside, ?_⟩
      rw [Bool.not_eq_true', Bool.eq_false_iff]
      intro gone
      rw [← shown] at kept
      apply kept _ ⟨r, InMemoryStore.resourceInfo_some present⟩
      · rw [Interval.entry_resourceId]
        exact h.consistent.ids r rs present
      · exact (past r i rs.buffer).mp gone
  exact congrArg₂ Tables.mk resources entries

end Engine

end Deltat
