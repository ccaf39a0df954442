import Deltat.SelectAnswers
import Deltat.StoredValues
import Deltat.TableOperations

/-! # A tenant is a relational database

Every statement does to the tables what its SQL says, or is refused. A client that sees answers only
cannot tell the engine, which keeps intervals on resources, from a database that keeps the tables.
-/

namespace Deltat

open Lib Lib.Outcome Lib.Conversations Limits Sql

/-! ## What may be answered -/

/-- The tag of a write that succeeds. -/
def WriteCommand.tag (command : WriteCommand) : Tag :=
  match command with
  | updateResource .. | updateRule .. | commitHold _ => ⟨"UPDATE", command.rows.length⟩
  | _ => ⟨"INSERT", command.rows.length⟩

theorem WriteCommand.tag_batch (command : WriteCommand) {n : Nat} (rows : command.rows.length = n)
    (inserts : command.tag.command = "INSERT") : command.tag = ⟨"INSERT", n⟩ := by
  cases command <;> simp_all [tag]

def ResourceFilter.Admits (row : ResourceInfo) : ResourceFilter → Prop
  | all => True
  | roots => row.parentId = none
  | childrenOf parent => row.parentId = some parent
  | id own => row.id = own

namespace Tables

/-- The rows of one table that are wanted, each once. -/
def Lists {α : Type} (t : Tables) (make : α → TableRow) (rows : List α) (Wanted : α → Prop) : Prop :=
  rows.Nodup ∧ ∀ row, row ∈ rows ↔ make row ∈ t.entries ∧ Wanted row

/-- What a read may answer. Free time is worked out from the tables, and not a part of them. -/
def Shows (t : Tables) (answer : Answer) : Command → Prop
  | .selectResources filter => ∃ rows, answer = .resources rows ∧ rows.Nodup ∧
      ∀ row, row ∈ rows ↔ row ∈ t.resources ∧ filter.Admits row
  | .selectRules r => ∃ rows, answer = .rules rows ∧ t.Lists .rule rows fun row => row.resourceId = r
  | .selectBookings r filters => ∃ rows, answer = .bookings rows ∧
      t.Lists .booking rows fun row => row.resourceId = r ∧ spanFiltersMatch filters row.start row.stop = true
  | .selectBookingsMulti ids filters => ∃ rows, answer = .bookings rows ∧
      t.Lists .booking rows fun row => row.resourceId ∈ ids ∧ spanFiltersMatch filters row.start row.stop = true
  | .selectHolds r filters => ∃ rows, answer = .holds rows ∧
      t.Lists .hold rows fun row => row.resourceId = r ∧ spanFiltersMatch filters row.start row.stop = true
  | .selectHoldsMulti ids filters => ∃ rows, answer = .holds rows ∧
      t.Lists .hold rows fun row => row.resourceId ∈ ids ∧ spanFiltersMatch filters row.start row.stop = true
  | .selectAvailability .. | .selectAvailabilityMulti .. | .selectMultiAvailability .. => True

end Tables

/-! ## Reads -/

section Reads

variable {α : Type} {s : InMemoryStore} {kind : RowKind α} {make : α → TableRow}

/-- The rows of a kind are the intervals that one table shows. -/
def Sql.RowKind.ShownBy (kind : RowKind α) (make : α → TableRow) : Prop :=
  ∀ (r : Ulid) (i : Interval) (b : α), kind.row r i = some b ↔ i.entry r = make b

theorem ruleRows_shown : ruleRows.ShownBy .rule := by
  intro r i b
  obtain ⟨id, span, kind⟩ := i
  cases kind <;> simp [ruleRows, Interval.rule, Interval.entry]

theorem bookingRows_shown : bookingRows.ShownBy .booking := by
  intro r i b
  obtain ⟨id, span, kind⟩ := i
  cases kind <;> simp [bookingRows, Interval.booking, Interval.entry]

theorem holdRows_shown : holdRows.ShownBy .hold := by
  intro r i b
  obtain ⟨id, span, kind⟩ := i
  cases kind <;> simp [holdRows, Interval.hold, Interval.entry]

/-- What is stored of a kind on a resource is what its table has of the resource. -/
theorem Tables.lists_stored (c : s.Indexed) (faithful : kind.Faithful) (shown : kind.ShownBy make) (r : Ulid) :
    s.tables.Lists make (kind.stored s r) fun b => kind.home b = r := by
  constructor
  · unfold RowKind.stored
    apply List.Nodup.filterMap
    · intro i j b first second
      have same := ((shown r i b).mp first).trans ((shown r j b).mp second).symm
      exact (Interval.entry_injective same).2
    · cases present : s.getResource r with
      | none => exact List.nodup_nil
      | some rs => exact List.Nodup.of_map _ (c.wellFormed r rs present).idsNodup
  · intro b
    constructor
    · intro inside
      obtain ⟨i, here, made⟩ := List.mem_filterMap.mp inside
      cases present : s.getResource r with
      | none =>
          rw [present] at here
          cases here
      | some rs =>
          rw [present] at here
          exact ⟨⟨r, i, ⟨rs, present, here⟩, (shown r i b).mp made⟩, (faithful.columns r i b made).1⟩
    · intro given
      obtain ⟨⟨q, i, ⟨rs, present, here⟩, entry⟩, home⟩ := given
      have made := (shown q i b).mpr entry
      obtain rfl : q = r := (faithful.columns q i b made).1.symm.trans home
      apply List.mem_filterMap.mpr
      rw [present]
      exact ⟨i, here, made⟩

variable [DecidableEq α]

/-- A list whose every row is counted once when it is wanted has the wanted rows. -/
theorem Tables.lists_of_count {t : Tables} {rows : List α} {stored : α → List α} {Passes : α → Prop} [DecidablePred Passes]
    (stores : ∀ b, t.Lists make (stored b) fun b' => kind.home b' = kind.home b)
    (counts : ∀ b, rows.count b = if Passes b then (stored b).count b else 0) : t.Lists make rows Passes := by
  constructor
  · rw [List.nodup_iff_count_le_one]
    intro b
    rw [counts]
    split
    · exact List.nodup_iff_count_le_one.mp (stores b).1 b
    · exact Nat.zero_le _
  · intro b
    rw [← List.count_pos_iff, counts]
    split
    · next passes =>
        rw [List.count_pos_iff, (stores b).2]
        exact ⟨fun inside => ⟨inside.1, passes⟩, fun inside => ⟨inside.1, rfl⟩⟩
    · next fails => exact ⟨fun none => absurd none (Nat.lt_irrefl 0), fun inside => absurd inside.2 fails⟩

theorem Tables.lists_getRows (c : s.Indexed) (faithful : kind.Faithful) (shown : kind.ShownBy make) {r : Ulid}
    {filters : List SpanFilter} {rows : List α} (ok : s.getRows kind.row r filters = .ok rows) :
    s.tables.Lists make rows fun b => kind.home b = r ∧ spanFiltersMatch filters (kind.start b) (kind.stop b) = true := by
  apply Tables.lists_of_count fun b => Tables.lists_stored c faithful shown (kind.home b)
  intro b
  rw [faithful.count_getRows ok, ite_and]
  by_cases home : kind.home b = r
  · rw [home, if_pos rfl]
  · have absent : (kind.stored s r).count b = 0 := List.count_eq_zero.mpr fun inside => home (faithful.mem_stored inside).1
    rw [absent, ite_self, if_neg home]

theorem Tables.lists_readMulti (c : s.Indexed) (faithful : kind.Faithful) (shown : kind.ShownBy make) {ids : List Ulid}
    {filters : List SpanFilter} {rows : List α} (ok : InMemoryStore.readMulti (s.getRows kind.row · filters) ids = .ok rows) :
    s.tables.Lists make rows fun b => kind.home b ∈ ids ∧ spanFiltersMatch filters (kind.start b) (kind.stop b) = true := by
  apply Tables.lists_of_count fun b => Tables.lists_stored c faithful shown (kind.home b)
  intro b
  rw [InMemoryStore.readMulti_count (fun r own here _ inside => faithful.mem_getRows here inside) ok, ite_and]
  apply if_congr Iff.rfl _ rfl
  rw [getRows_ok]
  exact faithful.count_filter

end Reads

theorem resourceInfo_id {s : InMemoryStore} (c : s.Indexed) {r : Ulid} {row : ResourceInfo} (shown : s.resourceInfo r = some row) :
    row.id = r := by
  obtain ⟨rs, present, rfl⟩ := Option.map_eq_some_iff.mp shown
  exact c.ids r rs present

theorem mem_listResources {s : InMemoryStore} {row : ResourceInfo} : row ∈ s.listResources ↔ row ∈ s.tables.resources := by
  unfold InMemoryStore.listResources
  rw [List.mem_filterMap]
  constructor
  · intro given
    obtain ⟨r, _, shown⟩ := given
    exact ⟨r, shown⟩
  · intro given
    obtain ⟨r, shown⟩ := given
    refine ⟨r, Engine.mem_resourceIds.mpr ?_, shown⟩
    obtain ⟨rs, present, _⟩ := Option.map_eq_some_iff.mp shown
    rw [present]
    rfl

theorem listResources_nodup {s : InMemoryStore} (c : s.Indexed) : s.listResources.Nodup := by
  unfold InMemoryStore.listResources
  apply List.Nodup.filterMap _ (Engine.resourceIds_nodup s)
  intro r q row first second
  exact (resourceInfo_id c first).symm.trans (resourceInfo_id c second)

/-- Every read shows the rows that it asks for. -/
theorem execute_shows {s : InMemoryStore} (c : s.Indexed) {now : Ms} {command : Command} {answer : Answer}
    (ok : command.execute s now = .ok answer) : s.tables.Shows answer command := by
  cases command with
  | selectResources filter =>
      cases filter with
      | all =>
          cases ok
          exact ⟨_, rfl, listResources_nodup c, fun row => mem_listResources.trans (and_iff_left trivial).symm⟩
      | roots | childrenOf =>
          cases ok
          refine ⟨_, rfl, (listResources_nodup c).filter _, fun row => ?_⟩
          rw [List.mem_filter, mem_listResources, decide_eq_true_iff]
          rfl
      | id own =>
          cases ok
          refine ⟨_, rfl, ?_, fun row => ?_⟩
          · cases s.resourceInfo own <;> simp
          · rw [Option.mem_toList]
            constructor
            · intro shown
              exact ⟨⟨own, shown⟩, resourceInfo_id c shown⟩
            · intro given
              obtain ⟨⟨r, shown⟩, same⟩ := given
              obtain rfl : r = own := (resourceInfo_id c shown).symm.trans same
              exact shown
  | selectRules r =>
      refine ⟨ruleRows.stored s r, ?_, Tables.lists_stored c ruleRows_faithful ruleRows_shown r⟩
      obtain ⟨rows, read, rfl⟩ := map_ok.mp ok
      unfold InMemoryStore.getRules at read
      unfold RowKind.stored
      cases present : s.getResource r with
      | none | some =>
          rw [present] at read
          cases read
          rfl
  | selectBookings =>
      obtain ⟨rows, read, rfl⟩ := map_ok.mp ok
      exact ⟨rows, rfl, Tables.lists_getRows c bookingRows_faithful bookingRows_shown read⟩
  | selectBookingsMulti =>
      obtain ⟨rows, read, rfl⟩ := map_ok.mp ok
      exact ⟨rows, rfl, Tables.lists_readMulti c bookingRows_faithful bookingRows_shown read⟩
  | selectHolds =>
      obtain ⟨rows, read, rfl⟩ := map_ok.mp ok
      exact ⟨rows, rfl, Tables.lists_getRows c holdRows_faithful holdRows_shown read⟩
  | selectHoldsMulti =>
      obtain ⟨rows, read, rfl⟩ := map_ok.mp ok
      exact ⟨rows, rfl, Tables.lists_readMulti c holdRows_faithful holdRows_shown read⟩
  | selectAvailability | selectAvailabilityMulti | selectMultiAvailability => trivial

/-! ## Writes -/

namespace Engine

section Writes

variable {ε ε' α β : Type} {e : Engine} {changes : List Change}

/-- A request does its changes, and is answered by a tag when it succeeds. -/
def Tagged (changes : List Change) (tag : Tag) (e : Engine) (result : Except WireError Tag) (e' : Engine) : Prop :=
  Performs changes e result e' ∧ ∀ given, result = .ok given → given = tag

theorem tagged_return {g : ε → WireError} {x : ExceptT ε (StateM Engine) Unit} (tag : Tag) (ends : Ends x e (Performs changes e)) :
    Ends (do
      ExceptT.adapt g x
      return tag : WireM Tag) e (Tagged changes tag e) := by
  apply Ends.bind
  have adapted := @performs_adapt ε WireError Unit e changes g x e ends
  unfold Ends at adapted ⊢
  obtain ⟨healthy, clock, ttl, ⟨n, tables, all, partly⟩, logged⟩ := adapted
  cases outcome : (exec (ExceptT.adapt g x) e).1 with
  | error error =>
      refine ⟨⟨healthy, clock, ttl, ⟨n, tables, fun _ ok => ?_, fun _ _ => partly error outcome⟩, logged⟩, fun _ ok => ?_⟩
      · cases ok
      · cases ok
  | ok u =>
      refine ⟨⟨healthy, clock, ttl, ⟨n, tables, fun _ _ => all u outcome, fun _ failed => ?_⟩, logged⟩, fun _ ok => ?_⟩
      · cases failed
      · exact (Except.ok.inj ok).symm

/-- A statement with a span that ends before it starts does nothing. -/
theorem tagged_check {tag : Tag} {c : Except WireError β} {f : β → WireM Tag} (h : e.Healthy)
    (some : ∀ error, c = .error error → changes ≠ []) (passed : ∀ b, c = .ok b → Ends (f b) e (Tagged changes tag e)) :
    Ends (liftM c >>= f) e (Tagged changes tag e) :=
  Ends.check (fun error failed => ⟨performs_refused h (some error failed) error, fun _ ok => by cases ok⟩) passed

theorem spanOf_ok {start stop : Ms} {span : Span} (ok : WireM.spanOf start stop = .ok span) :
    span = ⟨start, stop⟩ ∧ span.Valid := by
  unfold WireM.spanOf Span.tryNew at ok
  split at ok
  · next proper =>
      cases ok
      exact ⟨rfl, proper⟩
  · cases ok

/-- The spans of a batch are those of its rows. -/
theorem spansOf_ok {rows : List α} (start stop : α → Ms) (make : α → Span → β) {batch : List β}
    (ok : rows.mapM (fun r => do return make r (← WireM.spanOf (start r) (stop r))) = .ok batch) :
    batch = rows.map (fun r => make r ⟨start r, stop r⟩) ∧ ∀ r ∈ rows, (⟨start r, stop r⟩ : Span).Valid := by
  have each := mapM_ok.mp ok
  clear ok
  induction each with
  | nil => exact ⟨rfl, fun _ inside => absurd inside List.not_mem_nil⟩
  | cons first _ ih =>
      obtain ⟨span, made, same⟩ := bind_ok.mp first
      cases same
      obtain ⟨rfl, proper⟩ := spanOf_ok made
      exact ⟨by rw [List.map_cons, ← ih.1], List.forall_mem_cons.mpr ⟨proper, ih.2⟩⟩

/-- A write does its changes. -/
theorem write_tagged (h : e.Healthy) (command : WriteCommand) (limit : Nat) :
    Ends (command.execute limit) e (Tagged (command.changes e.latestExpiry) command.tag e) := by
  cases command with
  | insertResource r => exact tagged_return _ (performs_createResource h ..)
  | batchInsertResources resources =>
      have tagged := @tagged_return _ e _ WireError.ofError _ ⟨"INSERT", resources.length⟩ (performs_batchCreateResources h
        (resources.map fun r => (r.id, r.parentId, r.name, .ofNat r.capacity, r.bufferAfter)))
      rw [List.map_map] at tagged
      rw [WriteCommand.tag_batch (.batchInsertResources resources) (List.length_map ResourceRow.row) rfl]
      exact tagged
  | updateResource id changes => exact tagged_return _ (performs_updateResource h id changes)
  | insertRule r =>
      refine tagged_check h (fun _ _ => List.cons_ne_nil _ _) fun span made => ?_
      obtain ⟨rfl, proper⟩ := spanOf_ok made
      exact tagged_return _ (performs_addRule h r.id r.resourceId proper r.blocking)
  | batchInsertRules rules =>
      refine tagged_check h ?_ fun batch made => ?_
      · intro _ failed none
        rw [WriteCommand.changes, List.map_eq_nil_iff] at none
        subst none
        cases failed
      · obtain ⟨rfl, proper⟩ := spansOf_ok RuleRow.start RuleRow.stop (fun r span => (r.id, r.resourceId, span, r.blocking)) made
        have tagged := @tagged_return _ e _ WireError.ofError _ ⟨"INSERT", rules.length⟩
          (@performs_batchAddRules e h
        (rules.map fun r => (r.id, r.resourceId, ⟨r.start, r.stop⟩, r.blocking)) (List.forall_mem_map.mpr proper))
        rw [List.map_map] at tagged
        rw [WriteCommand.tag_batch (.batchInsertRules rules) (List.length_map RuleRow.row) rfl]
        exact tagged
  | updateRule id start stop blocking =>
      refine tagged_check h (fun _ _ => List.cons_ne_nil _ _) fun span made => ?_
      obtain ⟨rfl, proper⟩ := spanOf_ok made
      exact tagged_return _ (performs_updateRule h id proper blocking)
  | insertHold r =>
      refine tagged_check h (fun _ _ => List.cons_ne_nil _ _) fun span made => ?_
      obtain ⟨rfl, proper⟩ := spanOf_ok made
      exact tagged_return _ (performs_placeHold h r.id r.resourceId proper r.expiresAt limit)
  | batchInsertHolds holds =>
      refine tagged_check h (fun _ _ => List.cons_ne_nil _ _) fun batch made => ?_
      obtain ⟨rfl, proper⟩ := spansOf_ok HoldRow.start HoldRow.stop (fun r span => (r.id, r.resourceId, span, r.expiresAt)) made
      have tagged := @tagged_return _ e _ WireError.ofError _ ⟨"INSERT", holds.length⟩
        (@performs_batchPlaceHolds e h
        (holds.map fun r => (r.id, r.resourceId, ⟨r.start, r.stop⟩, r.expiresAt)) (List.forall_mem_map.mpr proper))
      rw [List.map_map] at tagged
      rw [WriteCommand.tag_batch (.batchInsertHolds holds) (List.length_map HoldRow.row) rfl]
      exact tagged
  | insertBooking r =>
      refine tagged_check h (fun _ _ => List.cons_ne_nil _ _) fun span made => ?_
      obtain ⟨rfl, proper⟩ := spanOf_ok made
      exact tagged_return _ (performs_confirmBooking h r.id r.resourceId proper r.label limit)
  | batchInsertBookings bookings =>
      refine tagged_check h (fun _ _ => List.cons_ne_nil _ _) fun batch made => ?_
      obtain ⟨rfl, proper⟩ := spansOf_ok BookingRow.start BookingRow.stop (fun r span => (r.id, r.resourceId, span, r.label)) made
      have tagged := @tagged_return _ e _ WireError.ofError _ ⟨"INSERT", bookings.length⟩
        (@performs_batchConfirmBookings e h
        (bookings.map fun r => (r.id, r.resourceId, ⟨r.start, r.stop⟩, r.label)) (List.forall_mem_map.mpr proper))
      rw [List.map_map] at tagged
      rw [WriteCommand.tag_batch (.batchInsertBookings bookings) (List.length_map BookingRow.row) rfl]
      exact tagged
  | commitHold c => exact tagged_return _ (performs_commitHolds h [c] limit)
  | commitHolds commits =>
      have tagged := @tagged_return _ e _ WireError.refusedCommit _ ⟨"INSERT", commits.length⟩ (performs_commitHolds h commits limit)
      rw [WriteCommand.tag_batch (.commitHolds commits) (List.length_map CommitRow.row) rfl]
      exact tagged

/-- A DELETE drops its row. -/
theorem delete_tagged (h : e.Healthy) (command : DeleteCommand) :
    Ends command.execute e (Tagged command.changes ⟨"DELETE", 1⟩ e) := by
  cases command with
  | deleteResource id => exact tagged_return _ (performs_deleteResource h id)
  | deleteRule id => exact tagged_return _ (performs_removeRule h id)
  | deleteHold id => exact tagged_return _ (performs_removeHold h id)
  | deleteBooking id => exact tagged_return _ (performs_cancelBooking h id)

end Writes

end Engine

/-! ## Conversations -/

/-- A request to a tenant: a statement of a client at some time, or a job of the reaper. -/
inductive TenantRequest where
  | statement (now : Ms) (statement : Sql.Statement)
  | expireHold (id : Ulid)
  | collectGarbage (now retentionMs : Ms)
  | compactWal (order : List Ulid)

/-- Run a request. Only a statement is answered. -/
def Engine.serve (lib : Sql.WriteLibrary) (counterOfferLimit : Nat) (e : Engine) :
    TenantRequest → Option (Except WireError Response) × Engine
  | .statement now statement =>
      (fun ran => (some ran.1, ran.2)) (exec (Sql.runStatement lib counterOfferLimit statement) { e with clock := now })
  | .expireHold id => (none, (exec (Engine.expireHold id) e).2)
  | .collectGarbage now retentionMs => (none, e.gcPastIntervals now retentionMs)
  | .compactWal order => (none, e.compactWal order)

namespace Tables

/-- A write is done and tagged, or it fails and is not done. When rows are inserted one by one, those
    before the one that fails stay. -/
def Writes (t : Tables) (changes : List Change) (tag : Tag) (reply : Except WireError Response) (t' : Tables) : Prop :=
  (reply = .ok (.execution tag) ∧ t' = changes.foldl Change.on t) ∨
    ∃ error n, n < changes.length ∧ reply = .error error ∧ t' = (changes.take n).foldl Change.on t

/-- What a statement does to the tables, and what it may be answered. -/
def Answers (lib : Sql.WriteLibrary) (latest : Ms) (t : Tables) (statement : Sql.Statement) (reply : Except WireError Response)
    (t' : Tables) : Prop :=
  match Sql.parseSql lib statement with
  | .error error => reply = .error (.sqlErr error) ∧ t' = t
  | .ok (.write command) => t.Writes (command.changes latest) command.tag reply t'
  | .ok (.delete command) => t.Writes command.changes ⟨"DELETE", 1⟩ reply t'
  | .ok (.select command) => t' = t ∧
      ∀ response, reply = .ok response → ∃ rows, response = .query rows ∧ t.Shows rows command

/-- What a request does to the tables, of a tenant whose holds last `maxHoldTtlMs` at most. -/
def Serves (lib : Sql.WriteLibrary) (maxHoldTtlMs : Ms) (t : Tables) (request : TenantRequest)
    (reply : Option (Except WireError Response)) (t' : Tables) : Prop :=
  match request with
  | .statement now statement => ∃ answer, reply = some answer ∧ t.Answers lib (satAdd now maxHoldTtlMs) statement answer t'
  | .expireHold id => t' = t ∨ t' = Change.on t (.delete .holds id)
  | .collectGarbage now retentionMs => t' = Change.on t (.collect now (satSub now retentionMs))
  | .compactWal _ => t' = t

end Tables

namespace Engine

section Serving

variable {e : Engine}

/-- An engine that keeps the tables. -/
def Keeps (maxHoldTtlMs : Ms) (e : Engine) : Prop := e.Healthy ∧ e.maxHoldTtlMs = maxHoldTtlMs

/-- A write that is tagged is answered as such. -/
theorem writes_tagged {changes : List Change} {tag : Tag} {x : WireM Tag} (tagged : Ends x e (Tagged changes tag e)) :
    Ends (do return .execution (← x) : WireM Response) e fun reply e' =>
      e'.Keeps e.maxHoldTtlMs ∧ e.store.tables.Writes changes tag reply e'.store.tables := by
  obtain ⟨⟨healthy, _, ttl, ⟨n, tables, all, partly⟩, _⟩, named⟩ := tagged
  apply Ends.bind
  unfold Ends
  cases outcome : (exec x e).1 with
  | error error => exact ⟨⟨healthy, ttl⟩, .inr ⟨error, n, partly error outcome, rfl, tables⟩⟩
  | ok given =>
      refine ⟨⟨healthy, ttl⟩, .inl ⟨by rw [named given outcome, exec_pure], ?_⟩⟩
      rw [exec_pure, tables, all given outcome, List.take_length]

/-- A statement does what its command does to the tables. -/
theorem runStatement_answers (h : e.Healthy) (lib : Sql.WriteLibrary) (limit : Nat) (statement : Sql.Statement) :
    Ends (Sql.runStatement lib limit statement) e fun reply e' =>
      e'.Keeps e.maxHoldTtlMs ∧ e.store.tables.Answers lib e.latestExpiry statement reply e'.store.tables := by
  apply Ends.check
  · intro error failed
    cases parsed : Sql.parseSql lib statement with
    | error cause =>
        rw [parsed] at failed
        cases failed
        exact ⟨⟨h, rfl⟩, by simp [Tables.Answers, parsed]⟩
    | ok command =>
        rw [parsed] at failed
        cases failed
  · intro command ok
    have parsed : Sql.parseSql lib statement = .ok command := mapError_ok.mp ok
    unfold Tables.Answers
    rw [parsed]
    cases command with
    | write command => exact writes_tagged (write_tagged h command limit)
    | delete command => exact writes_tagged (delete_tagged h command)
    | select command =>
        refine Ends.get (Ends.check (fun error _ => ⟨⟨h, rfl⟩, rfl, fun _ ok => ?_⟩) fun rows read => ?_)
        · cases ok
        · refine ⟨⟨h, rfl⟩, rfl, fun response ok => ?_⟩
          cases ok
          exact ⟨rows, rfl, execute_shows h.consistent.indexed (mapError_ok.mp read)⟩

/-- A request is served as the tables say, and leaves an engine that keeps them. -/
theorem serve_serves (lib : Sql.WriteLibrary) (limit : Nat) {maxHoldTtlMs : Ms} (e : Engine) (request : TenantRequest)
    (keeps : e.Keeps maxHoldTtlMs) : (e.serve lib limit request).2.Keeps maxHoldTtlMs ∧
      Tables.Serves lib maxHoldTtlMs e.store.tables request (e.serve lib limit request).1
        (e.serve lib limit request).2.store.tables := by
  obtain ⟨h, rfl⟩ := keeps
  cases request with
  | statement now statement =>
      have later : Healthy { e with clock := now } := ⟨h.running, h.noFault, h.consistent⟩
      obtain ⟨kept, answers⟩ := runStatement_answers later lib limit statement
      exact ⟨kept, _, rfl, answers⟩
  | expireHold id =>
      obtain ⟨healthy, _, ttl, ⟨n, tables, all, partly⟩, _⟩ := performs_removeHold h id
      refine ⟨⟨healthy, ttl⟩, ?_⟩
      cases n with
      | zero => exact .inl tables
      | succ n => exact .inr (tables.trans (by simp))
  | collectGarbage now retentionMs => exact ⟨⟨next_healthy h (.gc now retentionMs), rfl⟩, gc_tables h now retentionMs⟩
  | compactWal order =>
      change (e.compactWal order).Keeps e.maxHoldTtlMs ∧ (e.compactWal order).store.tables = e.store.tables
      rw [compactWal_eq h.running]
      exact ⟨⟨⟨h.running, h.noFault, h.consistent⟩, rfl⟩, rfl⟩

/-- Whatever clients and the reaper ask for, in any order, is served as a database of the tables serves it. -/
theorem serves_relationally (h : e.Healthy) (lib : Sql.WriteLibrary) (limit : Nat) (requests : List TenantRequest) :
    Specified (Tables.Serves lib e.maxHoldTtlMs) e.store.tables requests (converse (serve lib limit) e requests).1
      (converse (serve lib limit) e requests).2.store.tables :=
  converse_specified (fun e => e.store.tables) (Keeps e.maxHoldTtlMs) (serve_serves lib limit) requests ⟨h, rfl⟩

end Serving

end Engine

/-- A booking is made, read back across a compaction, and gone after a collection. -/
def bookingSession : List TenantRequest :=
  [.statement 5 (.write (insertInto "resources" ["id"] [firstId])),
    .statement 6 (.write (insertInto "bookings" ["id", "resource_id", "start", "end"]
      [secondId, firstId, .value (.number "10" false), .value (.number "20" false)])),
    .compactWal [1],
    .statement 7 (.query (readsBookings (.binaryOp (.identifier "resource_id") .eq firstId))),
    .statement 8 (.write (insertInto "resources" ["id"] [firstId])),
    .collectGarbage 40 10,
    .statement 41 (.delete ⟨[⟨.table [.identifier "bookings"], false⟩],
      some (.binaryOp (.identifier "id") .eq secondId), false, false, false, false, false⟩)]

theorem bookingSession_served :
    (converse (Engine.serve plainWrites 3) (Engine.start 0 1000) bookingSession).1 =
      [some (.ok (.execution ⟨"INSERT", 1⟩)), some (.ok (.execution ⟨"INSERT", 1⟩)), none,
        some (.ok (.query (.bookings [⟨2, 1, 10, 20, none⟩]))), some (.error (.ofError (.alreadyExists 1))), none,
        some (.error (.ofError (.notFound 2)))] ∧
    Specified (Tables.Serves plainWrites 1000) (Engine.start 0 1000).store.tables bookingSession
      (converse (Engine.serve plainWrites 3) (Engine.start 0 1000) bookingSession).1
      (converse (Engine.serve plainWrites 3) (Engine.start 0 1000) bookingSession).2.store.tables :=
  ⟨by decide +kernel, Engine.serves_relationally (Engine.start_healthy 0 1000) plainWrites 3 bookingSession⟩

end Deltat
