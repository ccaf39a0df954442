import Deltat.ReplayRebuilds
import Deltat.TableWrites

/-! # What operations do to the tables

An operation of the engine that succeeds has done to the tables what its statement asks for. One that is
refused has done none of it, or of several rows that are inserted one by one only the first. Its records
restore the same tables, and when only some of them are flushed, a part of its changes.
-/

namespace Deltat

open Lib Lib.Outcome Lib.Conversations Limits

/-! ## Records -/

namespace Engine

/-- What replay makes of records: a live store when all are flushed, and a part of the changes when some are. -/
structure Persists (changes : List Change) (e : Engine) (records : List Event) (live : InMemoryStore) : Prop where
  limits : ∀ ev ∈ records, ev.WithinLimits
  restores : ∀ s : InMemoryStore, s.Restores e.store → (records.foldl InMemoryStore.replayEvent s).Restores live
  cut : ∀ flushed lost, records = flushed ++ lost → ∃ live kept, live.Consistent ∧ Change.Cut changes kept ∧
    live.tables = kept.foldl Change.on e.store.tables ∧
    ∀ s : InMemoryStore, s.Restores e.store → (flushed.foldl InMemoryStore.replayEvent s).Restores live

section

variable {e e' : Engine} {change : Change} {records flushed lost : List Event} {s : InMemoryStore}

/-- Changes that apply can be written. -/
theorem exists_wrote (h : e.Healthy) (isChange : ∀ ev ∈ records, ev.isChange)
    (all : e.store.AllApply (records.flatMap Event.perResource)) : ∃ e', e.Wrote e' records := by
  have locked : ∀ ev ∈ records.flatMap Event.perResource,
      ∃ r ∈ ascending ((records.flatMap Event.perResource).filterMap Event.resourceId?), ev.resourceId? = some r := by
    intro ev inside
    obtain ⟨r, applies⟩ := all.applies ev inside
    exact ⟨r, mem_ascending.mpr (List.mem_filterMap.mpr ⟨ev, inside, applies.routed⟩), applies.routed⟩
  refine ⟨{ e with
    store := (ascending ((records.flatMap Event.perResource).filterMap Event.resourceId?)).foldl
      (applyChanges (records.flatMap Event.perResource)) e.store
    log := e.log ++ records }, ?_⟩
  exact wrote_early h (ascending_nodup _) isChange locked all rfl rfl rfl rfl rfl

/-- Replaying changes that apply does to the rebuilt store what they did to the live one. -/
theorem Wrote.restoresChanges (wrote : e.Wrote e' records) (h : e.Healthy) (isChange : ∀ ev ∈ records, ev.isChange)
    (all : e.store.AllApply (records.flatMap Event.perResource)) (same : s.Restores e.store) :
    (records.foldl InMemoryStore.replayEvent s).Restores e'.store := by
  refine ⟨same.linked.foldl_changes isChange, fun r => ?_⟩
  rw [InMemoryStore.foldl_replayEvent_getResource r records same.linked.named, wrote.table, Event.foldl_stepOn r isChange,
    Event.foldl_stepOn r isChange]
  have before := same.table r
  cases present : e.store.getResource r with
  | none =>
      rw [present] at before
      rw [rel_none before]
      exact .none
  | some live =>
      rw [present] at before
      obtain ⟨rs, rebuilt, both⟩ := rel_some before
      rw [rebuilt]
      apply Option.Rel.some
      apply foldl_related (fun both wf _ => both.applySingle wf.idsNodup _) (all.apart.sublist List.filter_sublist) both
        (h.consistent.wellFormed r live present)
      intro ev inside
      obtain ⟨member, routed⟩ := List.mem_filter.mp inside
      obtain ⟨q, applies⟩ := all.applies ev member
      rw [decide_eq_true_eq, applies.routed] at routed
      obtain rfl := Option.some.inj routed
      exact h.consistent.indexed.accepts present applies

theorem persists_nothing (h : e.Healthy) (changes : List Change) : Persists changes e [] e.store where
  limits := fun _ inside => absurd inside List.not_mem_nil
  restores := fun _ same => same
  cut := by
    intro flushed lost none
    obtain ⟨rfl, rfl⟩ := List.append_eq_nil_iff.mp none.symm
    exact ⟨e.store, [], h.consistent, .nothing _, rfl, fun _ same => same⟩

/-- A change of one record is restored or not. -/
theorem persists_one (h : e.Healthy) {ev : Event} (admits : e.Admits [ev]) (wrote : e.Wrote e' [ev])
    (tables : e'.store.tables = Change.on e.store.tables change) : Persists [change] e [ev] e'.store where
  limits := admits.withinLimits h
  restores := fun _ same => wrote.restores h admits same
  cut := by
    intro flushed lost split
    cases flushed with
    | nil => exact ⟨e.store, [], h.consistent, .nothing _, rfl, fun _ same => same⟩
    | cons first more =>
        obtain ⟨rfl, none⟩ := List.cons.inj split
        obtain ⟨rfl, rfl⟩ := List.append_eq_nil_iff.mp none.symm
        exact ⟨e'.store, [change], wrote.healthy.consistent, .whole _ (.nothing _), tables,
          fun _ same => wrote.restores h admits same⟩

/-- Of a batch of new allocations the first rows are restored. -/
theorem persists_batch (h : e.Healthy) {α : Type} {members : List α} {mk : α → Event} {rid : α → Ulid} {made : α → Interval}
    (isChange : ∀ m, (mk m).isChange) (routed : ∀ m, (mk m).resourceId? = some (rid m)) (adds : ∀ m, (mk m).adds = some (made m))
    (removes : ∀ m, (mk m).removes = none) (admits : e.Admits (members.map mk)) (wrote : e.Wrote e' (members.map mk)) :
    Persists [.insert (members.map fun m => (made m).entry (rid m))] e (members.map mk) e'.store where
  limits := admits.withinLimits h
  restores := fun _ same => wrote.restores h admits same
  cut := by
    intro flushed lost split
    have first : flushed = (members.take flushed.length).map mk := by rw [List.map_take, split, List.take_left]
    have all := admits.allApply h (List.forall_mem_map.mpr fun m _ => isChange m)
    rw [split, List.flatMap_append] at all
    have part : e.store.AllApply (flushed.flatMap Event.perResource) :=
      ⟨fun ev inside => all.applies ev (List.mem_append_left _ inside), (List.pairwise_append.mp all.apart).1⟩
    rw [first] at part
    have changes : ∀ ev ∈ (members.take flushed.length).map mk, ev.isChange = true := List.forall_mem_map.mpr fun m _ => isChange m
    obtain ⟨e'', wrote⟩ := exists_wrote h changes part
    refine ⟨e''.store, [.insert ((members.map fun m => (made m).entry (rid m)).take flushed.length)], wrote.healthy.consistent,
      .rows _ _ [], ?_, fun s same => ?_⟩
    · rw [← List.map_take]
      exact wrote.inserts h part isChange routed adds removes
    · rw [first]
      exact wrote.restoresChanges h changes part same

/-- What is restored of one change is restored of it and more. -/
theorem Persists.more {live : InMemoryStore} (persists : Persists [change] e records live) (rest : List Change) :
    Persists (change :: rest) e records live where
  limits := persists.limits
  restores := persists.restores
  cut := by
    intro flushed lost split
    obtain ⟨live, kept, consistent, cut, tables, restores⟩ := persists.cut flushed lost split
    refine ⟨live, kept, consistent, ?_, tables, restores⟩
    cases cut with
    | nothing => exact .nothing _
    | rows rows n => exact .rows rows n rest
    | whole _ none =>
        cases none
        exact .whole _ (.nothing _)

/-- One change after another. -/
theorem Persists.append {more : List Event} {rest : List Change} {live : InMemoryStore}
    (first : Persists [change] e records e'.store) (tables : e'.store.tables = Change.on e.store.tables change)
    (later : Persists rest e' more live) : Persists (change :: rest) e (records ++ more) live where
  limits := List.forall_mem_append.mpr ⟨first.limits, later.limits⟩
  restores := by
    intro s same
    rw [List.foldl_append]
    exact later.restores _ (first.restores s same)
  cut := by
    intro flushed lost split
    cases List.append_eq_append_iff.mp split with
    | inl behind =>
        obtain ⟨started, rfl, rest⟩ := behind
        obtain ⟨live, kept, consistent, cut, after, restores⟩ := later.cut started lost rest
        refine ⟨live, change :: kept, consistent, .whole _ cut, ?_, fun s same => ?_⟩
        · rw [after, tables]
          rfl
        · rw [List.foldl_append]
          exact restores _ (first.restores s same)
    | inr inside =>
        obtain ⟨unwritten, rest, _⟩ := inside
        exact (first.more _).cut flushed unwritten rest

end

end Engine

/-! ## Operations -/

/-- A request that does its changes one by one: all of them when it succeeds, and not all when it fails. -/
structure Performs {ε α : Type} (changes : List Change) (e : Engine) (result : Except ε α) (e' : Engine) : Prop where
  healthy : e'.Healthy
  clock : e'.clock = e.clock
  maxHoldTtlMs : e'.maxHoldTtlMs = e.maxHoldTtlMs
  tables : ∃ n, e'.store.tables = (changes.take n).foldl Change.on e.store.tables ∧
    (∀ a, result = .ok a → n = changes.length) ∧ ∀ error, result = .error error → n < changes.length
  logged : ∃ records, e'.log = e.log ++ records ∧ e.Persists changes records e'.store

namespace Engine

section

variable {ε ε' α : Type} {e e' : Engine} {changes : List Change} {change : Change}

theorem performs_refused (h : e.Healthy) (some : changes ≠ []) (error : ε) :
    Performs changes e (.error error : Except ε α) e where
  healthy := h
  clock := rfl
  maxHoldTtlMs := rfl
  tables := ⟨0, rfl, fun _ ok => (by cases ok), fun _ _ => List.length_pos_of_ne_nil some⟩
  logged := ⟨[], (List.append_nil _).symm, persists_nothing h changes⟩

/-- A request with nothing to write succeeds. -/
theorem performs_nothing (h : e.Healthy) (tables : changes.foldl Change.on e.store.tables = e.store.tables) (a : α) :
    Performs changes e (.ok a : Except ε α) e where
  healthy := h
  clock := rfl
  maxHoldTtlMs := rfl
  tables := ⟨changes.length, by rw [List.take_length, tables], fun _ _ => rfl, fun _ failed => (by cases failed)⟩
  logged := ⟨[], (List.append_nil _).symm, persists_nothing h changes⟩

/-- A request that writes all of its records at once succeeds. -/
theorem performs_written {records : List Event} (wrote : e.Wrote e' records) (maxHoldTtlMs : e'.maxHoldTtlMs = e.maxHoldTtlMs)
    (tables : e'.store.tables = Change.on e.store.tables change) (persists : e.Persists [change] records e'.store) (a : α) :
    Performs [change] e (.ok a : Except ε α) e' where
  healthy := wrote.healthy
  clock := wrote.clock
  maxHoldTtlMs := maxHoldTtlMs
  tables := ⟨1, tables, fun _ _ => rfl, fun _ failed => (by cases failed)⟩
  logged := ⟨records, wrote.log, persists⟩

theorem performs_one (h : e.Healthy) {ev : Event} (admits : e.Admits [ev]) (wrote : e.Wrote e' [ev])
    (maxHoldTtlMs : e'.maxHoldTtlMs = e.maxHoldTtlMs) (tables : e'.store.tables = Change.on e.store.tables change) (a : α) :
    Performs [change] e (.ok a : Except ε α) e' :=
  performs_written wrote maxHoldTtlMs tables (persists_one h admits wrote tables) a

/-- A request that fails a check does nothing. -/
theorem performs_check {β : Type} {c : Except ε β} {f : β → ExceptT ε (StateM Engine) α} (h : e.Healthy)
    (some : ∀ error, c = .error error → changes ≠ []) (passed : ∀ b, c = .ok b → Ends (f b) e (Performs changes e)) :
    Ends (liftM c >>= f) e (Performs changes e) :=
  Ends.check (fun error failed => performs_refused h (some error failed) error) passed

theorem performs_adapt {g : ε → ε'} {x : ExceptT ε (StateM Engine) α} {watched : Engine}
    (ends : Ends x watched (Performs changes e)) : Ends (ExceptT.adapt g x) watched (Performs changes e) := by
  unfold Ends at ends ⊢
  rw [exec_adapt]
  obtain ⟨healthy, clock, ttl, ⟨n, tables, all, partly⟩, logged⟩ := ends
  refine ⟨healthy, clock, ttl, ⟨n, tables, fun a ok => ?_, fun error failed => ?_⟩, logged⟩
  · cases outcome : (exec x watched).1 with
    | ok b => exact all b outcome
    | error error =>
        rw [outcome] at ok
        cases ok
  · cases outcome : (exec x watched).1 with
    | ok b =>
        rw [outcome] at failed
        cases failed
    | error error => exact partly error outcome

/-- The tail of an operation that persists its record and then applies it. -/
theorem performs_single (h : e.Healthy) {rid : Ulid} {ev : Event} (isChange : ev.isChange) (routed : ev.resourceId? = some rid)
    (admits : e.Admits [ev]) (tables : ∀ e', e.Wrote e' [ev] → e'.store.tables = Change.on e.store.tables change) :
    Ends (persistAndApply rid ev) e (Performs [change] e) := by
  have all := admits.allApply h (List.forall_mem_singleton.mpr isChange)
  rw [List.flatMap_singleton, Event.perResource_single routed] at all
  obtain ⟨r, applies⟩ := all.applies ev (List.mem_singleton.mpr rfl)
  obtain rfl : r = rid := Option.some.inj (applies.routed.symm.trans routed)
  have wrote := wrote_single h isChange applies
  unfold Ends
  rw [exec_persistAndApply h.running h.noFault]
  exact performs_one h admits wrote rfl (tables _ wrote) ()

/-- The tail of an operation that applies its records before they are durable. -/
theorem performs_early (h : e.Healthy) {resources : List Ulid} {records : List Event} (isChange : ∀ ev ∈ records, ev.isChange)
    (routed : ∀ ev ∈ records.flatMap Event.perResource, ∃ r ∈ resources, ev.resourceId? = some r)
    (admits : e.Admits records) (tables : ∀ e', e.Wrote e' records → e'.store.tables = Change.on e.store.tables change)
    (persists : ∀ e', e.Wrote e' records → e.Persists [change] records e'.store)
    {watched : Engine} (store : watched.store = e.store) (log : watched.log = e.log) (clock : watched.clock = e.clock)
    (ttl : watched.maxHoldTtlMs = e.maxHoldTtlMs) (running : watched.failed = e.failed)
    (noFault : watched.flushFault = e.flushFault) :
    Ends (persistEarly (ascending resources) records) watched (Performs [change] e) := by
  have healthy : watched.Healthy := ⟨running.trans h.running, noFault.trans h.noFault, store ▸ h.consistent⟩
  have locked : ∀ ev ∈ records.flatMap Event.perResource, ∃ r ∈ ascending resources, ev.resourceId? = some r := by
    intro ev inside
    obtain ⟨r, member, onResource⟩ := routed ev inside
    exact ⟨r, mem_ascending.mpr member, onResource⟩
  have wrote : e.Wrote (exec (persistEarly (ascending resources) records) watched).2 records := by
    rw [exec_persistEarly healthy.running healthy.noFault]
    exact wrote_early h (ascending_nodup resources) isChange locked (admits.allApply h isChange) (by simp only [store])
      (by simp only [log]) clock running noFault
  unfold Ends
  rw [exec_persistEarly healthy.running healthy.noFault] at wrote ⊢
  exact performs_written wrote ttl (tables _ wrote) (persists _ wrote) ()

/-- The same tail for one record on one resource. -/
theorem performs_early_one (h : e.Healthy) {rid : Ulid} {ev : Event} (isChange : ev.isChange) (routed : ev.resourceId? = some rid)
    (admits : e.Admits [ev]) (tables : ∀ e', e.Wrote e' [ev] → e'.store.tables = Change.on e.store.tables change)
    {watched : Engine} (store : watched.store = e.store) (log : watched.log = e.log) (clock : watched.clock = e.clock)
    (ttl : watched.maxHoldTtlMs = e.maxHoldTtlMs) (running : watched.failed = e.failed)
    (noFault : watched.flushFault = e.flushFault) : Ends (persistEarly [rid] [ev]) watched (Performs [change] e) := by
  have locked : ascending [rid] = [rid] := by simp [ascending]
  rw [← locked]
  apply performs_early h (List.forall_mem_singleton.mpr isChange) _ admits tables
    (fun e' wrote => persists_one h admits wrote (tables e' wrote)) store log clock ttl running noFault
  rw [List.flatMap_singleton, Event.perResource_single routed]
  simpa using routed

/-- A loop performs a change a round, until a round fails. -/
theorem performs_forM {f : α → ExceptT ε (StateM Engine) PUnit} {made : α → Change} {as : List α}
    (round : ∀ a ∈ as, ∀ e, e.Healthy → Ends (f a) e (Performs [made a] e)) (e : Engine) (h : e.Healthy) :
    Ends (as.forM f) e (Performs (as.map made) e) := by
  induction as generalizing e with
  | nil => exact performs_nothing h rfl PUnit.unit
  | cons a rest ih =>
      obtain ⟨healthy, clock, ttl, ⟨n, tables, all, partly⟩, records, log, persists⟩ := round a List.mem_cons_self e h
      apply Ends.bind
      unfold Ends
      cases outcome : (exec (f a) e).1 with
      | error error =>
          have none : n = 0 := Nat.lt_one_iff.mp (partly error outcome)
          subst none
          refine ⟨healthy, clock, ttl, ⟨0, tables, fun _ ok => ?_, fun _ _ => Nat.succ_pos _⟩, records, log, persists.more _⟩
          cases ok
      | ok u =>
          have done : n = 1 := all u outcome
          subst done
          obtain ⟨healthy', clock', ttl', ⟨m, tables', all', partly'⟩, records', log', persists'⟩ :=
            ih (fun b inRest => round b (List.mem_cons_of_mem _ inRest)) _ healthy
          refine ⟨healthy', clock'.trans clock, ttl'.trans ttl, ⟨m + 1, ?_, fun u ok => ?_, fun error failed => ?_⟩,
            records ++ records', ?_, persists.append tables persists'⟩
          · rw [tables', tables]
            rfl
          · rw [all' u ok, List.map_cons, List.length_cons]
          · rw [List.map_cons, List.length_cons]
            exact Nat.succ_lt_succ (partly' error failed)
          · rw [log', log, List.append_assoc]

end

/-! ### Each operation -/

section Operations

variable {e : Engine}

/-- The time that a hold placed now may last until. -/
def latestExpiry (e : Engine) : Ms := satAdd e.clock e.maxHoldTtlMs

theorem holdExpiry_ok {requested expiresAt : Ms} (passed : e.holdExpiry requested = .ok expiresAt) :
    expiresAt = min requested e.latestExpiry := by
  obtain ⟨_, _, clamped⟩ := bind_ok.mp passed
  exact (Except.ok.inj clamped).symm

theorem performs_createResource (h : e.Healthy) (id : Ulid) (parentId : Option Ulid) (name : Option String) (capacity : UInt32)
    (bufferAfter : Option Ms) :
    Ends (createResource id parentId name capacity bufferAfter) e
      (Performs [.insertResource ⟨id, parentId, name, capacity, bufferAfter⟩] e) := by
  cases checked : e.checkCreate id parentId name capacity bufferAfter with
  | error error =>
      refine Ends.get (performs_check h (fun _ _ => List.cons_ne_nil _ _) fun _ passed => ?_)
      rw [checked] at passed
      cases passed
  | ok passed =>
      have absent := (checkCreate_ok checked).2.1
      have ran := exec_createResource h.running h.noFault checked
      have effect := effect_createResource h id parentId name capacity bufferAfter
      unfold Ends at effect ⊢
      rw [ran] at effect ⊢
      cases effect with
      | inl same => exact absurd (congrArg Engine.log same) (by simp)
      | inr written =>
          obtain ⟨_, rfl, admits, wrote⟩ := written
          exact performs_one h admits wrote rfl (wrote.creates absent) ()

theorem performs_deleteResource (h : e.Healthy) (id : Ulid) : Ends (deleteResource id) e (Performs [.deleteResource id] e) := by
  cases checked : e.checkDelete id with
  | error error =>
      refine Ends.get (performs_check h (fun _ _ => List.cons_ne_nil _ _) fun _ passed => ?_)
      rw [checked] at passed
      cases passed
  | ok rs =>
      have ran := exec_deleteResource h.running h.noFault checked
      have effect := effect_deleteResource h id
      unfold Ends at effect ⊢
      rw [ran] at effect ⊢
      cases effect with
      | inl same => exact absurd (congrArg Engine.log same) (by simp)
      | inr written =>
          obtain ⟨_, rfl, admits, wrote⟩ := written
          exact performs_one h admits wrote rfl (wrote.deletesResource h) ()

theorem performs_updateResource (h : e.Healthy) (id : Ulid) (changes : ResourceChanges) :
    Ends (updateResource id changes.name (changes.capacity.map .ofNat) changes.bufferAfter) e
      (Performs [.updateResource id changes] e) :=
  performs_check h (fun _ _ => List.cons_ne_nil _ _) fun _ checked =>
    Ends.get (performs_check h (fun _ _ => List.cons_ne_nil _ _) fun _ present =>
      performs_single h rfl rfl (.update checked present) fun _ wrote => wrote.updatesResource h)

theorem performs_addRule (h : e.Healthy) (id rid : Ulid) {span : Span} (proper : span.Valid) (blocking : Bool) :
    Ends (addRule id rid span blocking) e
      (Performs [.insert [.rule ⟨id, rid, span.start, span.end, blocking⟩]] e) := by
  refine Ends.get (performs_check h (fun _ _ => List.cons_ne_nil _ _) fun _ passed => ?_)
  have admits : e.Admits [.ruleAdded id rid span blocking] := .addRule proper passed
  apply performs_single h rfl rfl admits
  intro e' wrote
  rw [wrote.insertsOne h admits rfl rfl rfl rfl, entry_rule]

theorem performs_updateRule (h : e.Healthy) (id : Ulid) {span : Span} (proper : span.Valid) (blocking : Bool) :
    Ends (updateRule id span blocking) e (Performs [.updateRule id span.start span.end blocking] e) := by
  refine Ends.get (performs_check h (fun _ _ => List.cons_ne_nil _ _) fun rid passed => ?_)
  obtain ⟨_, _, guard, i, present, found⟩ := checkUpdateRule_ok passed
  obtain ⟨inside, same, isRule⟩ := findIntervalOfKind_mem found
  have admits : e.Admits [.ruleUpdated id rid span blocking] := .updateRule proper passed
  exact performs_single h rfl rfl admits fun _ wrote => wrote.updatesRule h admits ⟨guard, present, inside⟩ same isRule

/-- An operation that removes an interval of the right kind deletes its row. -/
theorem performs_removal (h : e.Healthy) {id : Ulid} {isKind : IntervalKind → Bool} {table : EntryTable} {record : Ulid → Event}
    (kinds : ∀ (r : Ulid) (i : Interval), isKind i.kind = true → (i.entry r).table = table)
    (admits : ∀ rid, e.checkRemoval id isKind = .ok rid → e.Admits [record rid]) (isChange : ∀ rid, (record rid).isChange)
    (routed : ∀ rid, (record rid).resourceId? = some rid) (adds : ∀ rid, (record rid).adds = none)
    (removes : ∀ rid, (record rid).removes = some id) :
    Ends (do
      let rid ← liftM (e.checkRemoval id isKind)
      persistAndApply rid (record rid) : EngineM Unit) e (Performs [.delete table id] e) := by
  apply performs_check h (fun _ _ => List.cons_ne_nil _ _)
  intro rid passed
  obtain ⟨_, guard, i, present, found⟩ := checkRemoval_ok passed
  obtain ⟨inside, same, kind⟩ := findIntervalOfKind_mem found
  apply performs_single h (isChange rid) (routed rid) (admits rid passed)
  intro e' wrote
  rw [← kinds rid i kind]
  exact wrote.deletes h (admits rid passed) (isChange rid) (routed rid) (adds rid) (removes rid) ⟨guard, present, inside⟩ same

theorem performs_removeRule (h : e.Healthy) (id : Ulid) : Ends (removeRule id) e (Performs [.delete .rules id] e) := by
  refine Ends.get (performs_removal h (fun r i kind => ?_) (fun _ => .removeRule) ?_ ?_ ?_ ?_)
  · obtain ⟨own, span, kind'⟩ := i
    cases kind' with
    | nonBlocking | blocking => rfl
    | hold | booking => cases kind
  all_goals exact fun _ => rfl

theorem performs_removeHold (h : e.Healthy) (id : Ulid) : Ends (removeHold id) e (Performs [.delete .holds id] e) := by
  refine Ends.get (performs_removal h (fun r i kind => ?_) (fun _ => .removeHold) ?_ ?_ ?_ ?_)
  · obtain ⟨own, span, kind'⟩ := i
    cases kind' with
    | hold => rfl
    | nonBlocking | blocking | booking => cases kind
  all_goals exact fun _ => rfl

theorem performs_cancelBooking (h : e.Healthy) (id : Ulid) : Ends (cancelBooking id) e (Performs [.delete .bookings id] e) := by
  refine Ends.get (performs_removal h (fun r i kind => ?_) (fun _ => .cancelBooking) ?_ ?_ ?_ ?_)
  · obtain ⟨own, span, kind'⟩ := i
    cases kind' with
    | booking => rfl
    | nonBlocking | blocking | hold => cases kind
  all_goals exact fun _ => rfl

theorem performs_batchCreateResources (h : e.Healthy)
    (resources : List (Ulid × Option Ulid × Option String × UInt32 × Option Ms)) :
    Ends (batchCreateResources resources) e
      (Performs (resources.map fun r => .insertResource ⟨r.1, r.2.1, r.2.2.1, r.2.2.2.1, r.2.2.2.2⟩) e) := by
  apply performs_check h
  · intro _ large none
    rw [List.map_eq_nil_iff] at none
    subst none
    cases large
  · intro _ _
    exact performs_forM (fun r _ e h => performs_createResource h ..) e h

theorem performs_batchAddRules (h : e.Healthy) {rules : List (Ulid × Ulid × Span × Bool)} (proper : ∀ r ∈ rules, r.2.2.1.Valid) :
    Ends (batchAddRules rules) e
      (Performs (rules.map fun r => .insert [.rule ⟨r.1, r.2.1, r.2.2.1.start, r.2.2.1.end, r.2.2.2⟩]) e) := by
  apply performs_check h
  · intro _ large none
    rw [List.map_eq_nil_iff] at none
    subst none
    cases large
  · intro _ _
    exact performs_forM (fun r inside e h => performs_addRule h r.1 r.2.1 (proper r inside) r.2.2.2) e h

theorem performs_placeHold (h : e.Healthy) (id rid : Ulid) {span : Span} (proper : span.Valid) (expiresAt : Ms) (limit : Nat) :
    Ends (placeHoldOffering id rid span expiresAt limit) e
      (Performs [.insert [.hold ⟨id, rid, span.start, span.end, min expiresAt e.latestExpiry⟩]] e) := by
  refine Ends.get (performs_check h (fun _ _ => List.cons_ne_nil _ _) fun clamped passed => ?_)
  have admits : e.Admits [.holdPlaced id rid span clamped] := .placeHold proper passed
  have expiry : clamped = min expiresAt e.latestExpiry := by
    obtain ⟨⟨clamped', rules⟩, context, passed⟩ := bind_ok.mp passed
    obtain ⟨_, _, same⟩ := bind_ok.mp passed
    cases same
    obtain ⟨_, _, context⟩ := bind_ok.mp (refusing_ok.mp context)
    obtain ⟨_, expiry, context⟩ := bind_ok.mp context
    obtain ⟨_, _, same⟩ := bind_ok.mp context
    cases same
    exact holdExpiry_ok expiry
  rw [← expiry]
  exact Ends.step rfl (performs_adapt (performs_early_one h rfl rfl admits
    (fun _ wrote => wrote.insertsOne h admits rfl rfl rfl rfl) rfl rfl rfl rfl rfl rfl))

theorem performs_confirmBooking (h : e.Healthy) (id rid : Ulid) {span : Span} (proper : span.Valid) (label : Option String)
    (limit : Nat) : Ends (confirmBookingOffering id rid span label limit) e
      (Performs [.insert [.booking ⟨id, rid, span.start, span.end, label⟩]] e) := by
  refine Ends.get (performs_check h (fun _ _ => List.cons_ne_nil _ _) fun _ passed => ?_)
  have admits : e.Admits [.bookingConfirmed id rid span label] := .confirmBooking proper passed
  exact performs_adapt (performs_early_one h rfl rfl admits (fun _ wrote => wrote.insertsOne h admits rfl rfl rfl rfl)
    rfl rfl rfl rfl rfl rfl)

/-- The tail of a batch of new allocations. -/
theorem performs_batch (h : e.Healthy) {α : Type} {members : List α} {mk : α → Event} {rid : α → Ulid} (made : α → Interval)
    (isChange : ∀ m, (mk m).isChange) (routed : ∀ m, (mk m).resourceId? = some (rid m)) (adds : ∀ m, (mk m).adds = some (made m))
    (removes : ∀ m, (mk m).removes = none) (admits : e.Admits (members.map mk)) {watched : Engine}
    (store : watched.store = e.store) (log : watched.log = e.log) (clock : watched.clock = e.clock)
    (ttl : watched.maxHoldTtlMs = e.maxHoldTtlMs) (running : watched.failed = e.failed)
    (noFault : watched.flushFault = e.flushFault) :
    Ends (persistEarly (ascending (members.map rid)) (members.map mk)) watched
      (Performs [.insert (members.map fun m => (made m).entry (rid m))] e) := by
  have changes : ∀ ev ∈ members.map mk, ev.isChange := List.forall_mem_map.mpr fun m _ => isChange m
  apply performs_early h changes _ admits
    (fun _ wrote => wrote.inserts h (admits.allApply h changes) isChange routed adds removes)
    (fun _ wrote => persists_batch h isChange routed adds removes admits wrote) store log clock ttl running noFault
  rw [perResource_batch fun m => Event.perResource_single (routed m)]
  exact List.forall_mem_map.mpr fun m member => ⟨rid m, List.mem_map_of_mem member, routed m⟩

/-- An empty batch inserts nothing. -/
theorem performs_empty (h : e.Healthy) : Performs [.insert []] e (.ok () : Except EngineError Unit) e :=
  performs_nothing h (by simp [Change.on]) ()

theorem performs_batchConfirmBookings (h : e.Healthy) {bookings : List (Ulid × Ulid × Span × Option String)}
    (proper : ∀ b ∈ bookings, b.2.2.1.Valid) : Ends (batchConfirmBookings bookings) e
      (Performs [.insert (bookings.map fun b => .booking ⟨b.1, b.2.1, b.2.2.1.start, b.2.2.1.end, b.2.2.2⟩)] e) := by
  unfold batchConfirmBookings
  split
  · next empty =>
      rw [List.isEmpty_iff] at empty
      subst empty
      exact performs_empty h
  · refine Ends.get (performs_check h (fun _ _ => List.cons_ne_nil _ _) fun _ passed => ?_)
    obtain ⟨_, labels, admitted⟩ := bind_ok.mp passed
    have labels := forM_ok.mp labels
    exact performs_batch h (fun b => ⟨b.1, b.2.2.1, .booking b.2.2.2⟩) (fun _ => rfl) (fun _ => rfl) (fun _ => rfl)
      (fun _ => rfl) (.confirmBookings (fun b member => ⟨proper b member, labels b member⟩) (admitBatch_ok admitted))
      rfl rfl rfl rfl rfl rfl

/-- The members of a batch of holds with their expiries clamped. -/
theorem holdExpiries_eq {holds clamped : List (Ulid × Ulid × Span × Ms)} (passed : e.holdExpiries holds = .ok clamped) :
    clamped = holds.map fun h => (h.1, h.2.1, h.2.2.1, min h.2.2.2 e.latestExpiry) := by
  have each := mapM_ok.mp passed
  clear passed
  induction each with
  | nil => rfl
  | cons first _ ih =>
      obtain ⟨expiresAt, expiry, same⟩ := bind_ok.mp first
      cases same
      rw [List.map_cons, ← ih, holdExpiry_ok expiry]

theorem performs_batchPlaceHolds (h : e.Healthy) {holds : List (Ulid × Ulid × Span × Ms)} (proper : ∀ b ∈ holds, b.2.2.1.Valid) :
    Ends (batchPlaceHolds holds) e (Performs [.insert (holds.map fun b =>
      .hold ⟨b.1, b.2.1, b.2.2.1.start, b.2.2.1.end, min b.2.2.2 e.latestExpiry⟩)] e) := by
  refine Ends.get (performs_check h (fun _ _ => List.cons_ne_nil _ _) fun clamped expiries => ?_)
  have bounds := holdExpiries_ok expiries
  have rows : (holds.map fun b => TableRow.hold ⟨b.1, b.2.1, b.2.2.1.start, b.2.2.1.end, min b.2.2.2 e.latestExpiry⟩) =
      clamped.map fun b => Interval.entry b.2.1 ⟨b.1, b.2.2.1, .hold b.2.2.2⟩ := by
    rw [holdExpiries_eq expiries, List.map_map]
    rfl
  rw [rows]
  split
  · next none =>
      have empty : clamped = [] := by simpa using none
      subst empty
      exact performs_empty h
  · refine Ends.get (performs_check h (fun _ _ => List.cons_ne_nil _ _) fun _ admitted => Ends.step rfl ?_)
    have valid : ∀ b ∈ clamped, b.2.2.1.Valid := by
      intro b member
      obtain ⟨⟨g, given, same⟩, _⟩ := bounds b member
      exact same ▸ proper g given
    have admits := Admits.placeHolds (fun b member => ⟨valid b member, (bounds b member).2⟩) (admitBatch_ok admitted)
    apply performs_batch h (fun b => ⟨b.1, b.2.2.1, .hold b.2.2.2⟩) (fun _ => rfl) (fun _ => rfl) (fun _ => rfl) (fun _ => rfl)
      admits
    all_goals rfl

theorem performs_commitHolds (h : e.Healthy) (commits : List CommitRow) (limit : Nat) :
    Ends (commitHoldsOffering (commits.map fun c => (c.holdId, c.bookingId, c.label)) limit) e
      (Performs [.commit commits] e) := by
  unfold commitHoldsOffering
  split
  · next empty =>
      rw [List.isEmpty_iff, List.map_eq_nil_iff] at empty
      subst empty
      have same : TableRow.commit [] = id := by
        funext row
        cases row <;> rfl
      exact performs_nothing h (by rw [List.foldl_cons, List.foldl_nil, Change.on, same, Set.image_id]) ()
  · refine Ends.get (performs_check h (fun _ _ => List.cons_ne_nil _ _) fun checked passed => performs_adapt ?_)
    obtain ⟨rids, entries⟩ := checked
    obtain ⟨admitted, given, resources⟩ := checkCommits_admitted passed
    have rows : commits = commitRows entries := by
      have shown := congrArg (List.map fun c : Ulid × Ulid × Option String => (⟨c.1, c.2.1, c.2.2⟩ : CommitRow)) given
      rw [List.map_map, List.map_map] at shown
      exact (List.map_id _).symm.trans shown.symm
    rw [rows]
    have admits : e.Admits [.holdsCommitted entries] := .commit passed
    have tables : ∀ e', e.Wrote e' [.holdsCommitted entries] → e'.store.tables =
        Change.on e.store.tables (.commit (commitRows entries)) := fun _ wrote => wrote.commits h admits admitted
    apply performs_early h (List.forall_mem_singleton.mpr rfl) _ admits tables
      (fun _ wrote => persists_one h admits wrote (tables _ wrote)) rfl rfl rfl rfl rfl rfl
    rw [List.flatMap_singleton]
    intro ev inside
    obtain ⟨c, member, isEvent⟩ := List.mem_flatMap.mp inside
    simp only [HoldCommit.events, List.mem_cons, List.not_mem_nil, or_false] at isEvent
    refine ⟨c.resourceId, resources ▸ List.mem_map_of_mem member, ?_⟩
    cases isEvent with
    | inl same | inr same => rw [same]; rfl

end Operations

end Engine

end Deltat
