import Deltat.CompactionDurability
import Deltat.FlushOrder
import Deltat.FreeTime

/-! # What a read may show before it is durable

Holds, bookings and commits reach memory before their records are flushed. Memory is what the
flushed records replay to, changed by those that are queued, and these only take time away. So
an early read errs towards less free time. The exception is a commit that names for a booking
the id of another of its own holds: the removal of that hold takes the booking.
-/

namespace Deltat

open Lib Lib.Outcome Lib.Machine Limits Conflict Availability

/-! ## What a request decides -/

theorem Event.timely_of_spans {change : Event} (spans : ∀ i, change.adds = some i → i.span.Representable)
    (keeps : ∀ rs, (change.setFields rs).bufferAfter = rs.bufferAfter) : change.Timely where
  spans := spans
  buffers rs duration := by
    unfold ResourceState.buffer at duration ⊢
    rwa [keeps]

namespace Request

variable {e : Engine} {guard : Ulid → Option ResourceState} {rules : Ulid → InheritedRules} {targets : List Ulid}
  {request : Request} {records : List Event} {r : Ulid}

/-- An early write allocates, or commits holds that stand on the guarded resource. -/
theorem admitted_takes (checked : request.Checked) (passed : request.admitRecords e guard rules targets = .ok records)
    (early : request.early) {rs : ResourceState} (shown : ∀ rs', guard r = some rs' → rs' = rs) : rs.Takes r records := by
  cases request with
  | placeHold | confirmBooking =>
      obtain ⟨_, _, same⟩ := bind_ok.mp passed
      cases same
      exact .inl (List.forall_mem_singleton.mpr rfl)
  | batchPlaceHolds | batchConfirmBookings =>
      obtain ⟨_, _, same⟩ := bind_ok.mp passed
      cases same
      exact .inl (List.forall_mem_map.mpr fun _ _ => rfl)
  | commitHolds commits =>
      obtain ⟨entries, admitted, same⟩ := bind_ok.mp passed
      cases same
      refine .inr ⟨entries, rfl, ?_, fun c inside => ?_⟩
      · simpa [Function.comp_def] using ((admitted_entries admitted).map Prod.fst).nodup checked.2.2.1
      · obtain ⟨member, own⟩ := List.mem_filter.mp inside
        obtain ⟨row, _, entered⟩ := mapM_ok_result admitted member
        obtain ⟨rs', hold, held, found, _, rfl⟩ := admitEntry_ok entered
        have here : row.2 = r := by simpa using own
        rw [shown rs' (here ▸ held)] at found
        refine ⟨hold, ?_, (Engine.findIntervalOfKind_mem found).2.2, rfl⟩
        rw [ResourceState.withId_head]
        unfold Engine.findIntervalOfKind at found
        split at found
        · next first =>
            split at found
            · cases found
              exact first
            · cases found
        · cases found
  | _ => cases early

theorem timely_insert {change : Event} {i : Interval} {span : Span} (valid : span.Valid) (inBounds : validateSpan span = .ok ())
    (adds : change.adds = some i) (same : i.span = span) (keeps : ∀ rs, change.setFields rs = rs) : change.Timely := by
  apply Event.timely_of_spans
  · intro j added
    rw [adds] at added
    cases added
    rw [same]
    exact (validateSpan_admits valid inBounds).representable
  · exact fun rs => congrArg ResourceState.bufferAfter (keeps rs)

/-- The changes of an admitted request leave spans representable and buffers durations. -/
theorem admitted_timely (checked : request.Checked) (passed : request.admitRecords e guard rules targets = .ok records)
    (timelines : ∀ rs, guard r = some rs → rs.Timeline) :
    ∀ change ∈ records.flatMap (Event.changesOn r), change.Timely := by
  have removal : ∀ {change : Event}, change.adds = none → (∀ rs, change.setFields rs = rs) → change.Timely := by
    intro change adds keeps
    apply Event.timely_of_spans
    · intro i added
      rw [adds] at added
      cases added
    · exact fun rs => congrArg ResourceState.bufferAfter (keeps rs)
  -- A single change is itself the only change on its resource.
  have single : ∀ {ev : Event}, ev.perResource = [ev] → ev.Timely → ∀ change ∈ ev.changesOn r, change.Timely := by
    intro ev alone timely change inside
    rw [Event.changesOn, alone] at inside
    cases List.mem_singleton.mp (List.mem_filter.mp inside).1
    exact timely
  have one : ∀ {ev : Event}, ev.perResource = [ev] → ev.Timely → ∀ change ∈ [ev].flatMap (Event.changesOn r), change.Timely := by
    intro ev alone timely
    rw [List.flatMap_singleton]
    exact single alone timely
  cases request with
  | addRule id rid span blocking =>
      obtain ⟨_, _, passed⟩ := bind_ok.mp passed
      obtain ⟨_, _, same⟩ := bind_ok.mp passed
      cases same
      exact one rfl (timely_insert span.2 checked rfl rfl fun _ => rfl)
  | updateRule id span blocking =>
      obtain ⟨rid, _, _, rfl, _, _⟩ := admitEntity_ok passed
      exact one rfl (timely_insert span.2 checked rfl rfl fun _ => rfl)
  | removeRule | removeHold | cancelBooking =>
      obtain ⟨rid, _, _, rfl, _, _⟩ := admitEntity_ok passed
      exact one rfl (removal rfl fun _ => rfl)
  | placeHold id rid span expiresAt =>
      obtain ⟨_, _, same⟩ := bind_ok.mp passed
      cases same
      exact one rfl (timely_insert span.2 checked.1 rfl rfl fun _ => rfl)
  | confirmBooking id rid span label =>
      obtain ⟨_, _, same⟩ := bind_ok.mp passed
      cases same
      exact one rfl (timely_insert span.2 checked.1 rfl rfl fun _ => rfl)
  | batchPlaceHolds members | batchConfirmBookings members =>
      obtain ⟨_, _, same⟩ := bind_ok.mp passed
      cases same
      intro change inside
      obtain ⟨ev, written, step⟩ := List.mem_flatMap.mp inside
      obtain ⟨m, member, rfl⟩ := List.mem_map.mp written
      exact single rfl (timely_insert m.2.2.1.2 (checked.2 m member).1 rfl rfl fun _ => rfl) change step
  | commitHolds commits =>
      obtain ⟨entries, admitted, same⟩ := bind_ok.mp passed
      cases same
      rw [List.flatMap_singleton, ← Event.ownPart_eq_changesOn (.inl ⟨entries, rfl⟩)]
      intro change inside
      obtain ⟨c, own, isEvent⟩ := List.mem_flatMap.mp inside
      obtain ⟨member, here⟩ := List.mem_filter.mp own
      obtain ⟨row, _, entered⟩ := mapM_ok_result admitted member
      obtain ⟨rs, hold, held, found, _, rfl⟩ := admitEntry_ok entered
      have at' : row.2 = r := by simpa using here
      have representable := (timelines rs (at' ▸ held)).spans hold (Engine.findIntervalOfKind_mem found).1
      simp only [HoldCommit.events, List.mem_cons, List.not_mem_nil, or_false] at isEvent
      rcases isEvent with rfl | rfl
      · exact removal rfl fun _ => rfl
      · apply Event.timely_of_spans
        · intro i added
          cases added
          exact representable
        · exact fun _ => rfl
  | updateResource id name capacity bufferAfter =>
      obtain ⟨_, _, same⟩ := bind_ok.mp passed
      cases same
      apply one rfl
      refine ⟨fun i added => (by cases added), fun rs duration => ?_⟩
      obtain ⟨_, _, checked⟩ := bind_ok.mp checked
      obtain ⟨_, buffers, _⟩ := bind_ok.mp checked
      cases bufferAfter with
      | none => exact duration
      | some given =>
          cases given with
          | none => exact le_refl _
          | some b =>
              have valid : validateBuffer (some b) = .ok () := buffers
              exact (validateBuffer_ok.mp valid b rfl).1

end Request

/-! ## Memory ahead of the disk -/

section Replaying

variable {r : Ulid} {records : List Event}

/-- Records that leave a resource alone or change it. -/
theorem foldl_stepOn_changes (changes : ∀ ev ∈ records, ev.isChange ∨ (∀ entry, ev.stepOn r entry = entry) ∧ ev.changesOn r = []) :
    ∀ entry : Option ResourceState, records.foldl (fun entry ev => ev.stepOn r entry) entry =
      entry.map ((records.flatMap (Event.changesOn r)).foldl ResourceState.applySingle) := by
  induction records with
  | nil => intro entry; simp
  | cons ev rest ih =>
      intro entry
      rw [List.foldl_cons, ih (fun later inside => changes later (List.mem_cons_of_mem _ inside)), List.flatMap_cons]
      rcases changes ev List.mem_cons_self with change | ⟨alone, none⟩
      · rw [Event.stepOn_change change, Option.map_map]
        congr 1
        funext rs
        exact List.foldl_append.symm
      · rw [alone, none, List.nil_append]

/-- Records that leave a resource alone, but for one that creates it. -/
theorem foldl_stepOn_created {new : ResourceState}
    (each : ∀ ev ∈ records, (∀ entry, ev.stepOn r entry = entry) ∨ ∀ entry, ev.stepOn r entry = some new) :
    ∀ entry : Option ResourceState, (entry = some new ∨ ∃ ev ∈ records, ∀ entry, ev.stepOn r entry = some new) →
      records.foldl (fun entry ev => ev.stepOn r entry) entry = some new := by
  induction records with
  | nil =>
      rintro entry (same | ⟨ev, inside, _⟩)
      · exact same
      · cases inside
  | cons ev rest ih =>
      intro entry known
      apply ih fun later inside => each later (List.mem_cons_of_mem _ inside)
      rcases each ev List.mem_cons_self with alone | creates
      · rcases known with same | ⟨later, inside, creates⟩
        · exact .inl ((alone entry).trans same)
        · rcases List.mem_cons.mp inside with rfl | inRest
          · exact .inl (creates entry)
          · exact .inr ⟨later, inRest, creates⟩
      · exact .inl (creates entry)

theorem replayed_more (stored flushed batch : List Event) :
    (InMemoryStore.replayed (stored ++ (flushed ++ batch))).getResource r =
      batch.foldl (fun entry ev => ev.stepOn r entry) ((InMemoryStore.replayed (stored ++ flushed)).getResource r) := by
  rw [← List.append_assoc, InMemoryStore.replayed_append,
    InMemoryStore.foldl_replayEvent_getResource _ _ (InMemoryStore.replayed_named _)]

end Replaying

/-- The records that a request is about to queue. -/
def Task.records : Task → List Event
  | .sending _ _ records => records
  | _ => []

namespace Tenant

variable {shards : Shards} {t t' : Tenant} {a : Action} {r : Ulid} {stored : List Event}

/-- A request has decided its records at its check. -/
theorem Took.sending (took : t.Took shards a t') {j : TaskId} {request : Request.Prepared} {held : List Handle}
    {records : List Event} (phase : t'.tasks j = .sending request held records) :
    t.tasks j = .sending request held records ∨ t'.memory = t.memory ∧ ∃ targets claimed now rules,
      t.tasks j = .claiming request targets held claimed [] ∧
      request.1.admitRecords { t.engine with clock := now } (t.guard held) rules targets = .ok records := by
  by_cases own : a.task = some j
  · cases took with
    | check before _ admitted =>
        cases own
        rw [setTask_self] at phase
        cases phase
        exact .inr ⟨rfl, _, _, _, _, before, admitted⟩
    | start | lookUp | lock | allLocked | claim | send | apply | release | fail | answer | refuse =>
        cases own
        simp at phase
    | _ => cases own
  · rw [took.tasks_other own] at phase
    exact .inl phase

/-- What is durable of a resource, against what memory has of it: it is behind by the changes
    of holds, bookings and commits that are queued, and each of these takes time away. -/
structure Behind (t : Tenant) (r : Ulid) (durable rs : ResourceState) : Prop where
  timeline : durable.Timeline
  reaches : (t.owed r).foldl ResourceState.applySingle rs = (t.earlyOn r).foldl ResourceState.applySingle durable
  tightens : durable.Tightens r (t.writer.unflushed.filter Event.early)

/-- Memory is ahead of the flushed records of a tenant that deletes nothing. -/
structure Ahead (stored : List Event) (t : Tenant) (r : Ulid) : Prop where
  inOrder : t.InOrder r
  keeps : ∀ id stage, t.topology ≠ .deleting id stage
  looked : ∀ i, ∀ h ∈ (t.tasks i).handles, h.1 = r → (t.memory.store.getResource r).isSome
  commands : t.Commands
  absent : t.memory.store.getResource r = none → t.writer.unflushed.flatMap (Event.changesOn r) = []
  creating : ∀ parentId name capacity bufferAfter sent, t.topology = .creating r parentId name capacity bufferAfter sent →
    t.memory.store.getResource r = none ∧ (ResourceState.new r parentId name capacity bufferAfter).Timeline
  created : ∀ parentId name capacity bufferAfter, t.topology = .creating r parentId name capacity bufferAfter true →
    t.writer.outcomes .topology = some true →
    (InMemoryStore.replayed (stored ++ t.writer.flushed)).getResource r = some (.new r parentId name capacity bufferAfter)
  timely : ∀ change ∈ t.writer.unflushed.flatMap (Event.changesOn r), change.Timely
  decided : ∀ i request held records, t.tasks i = .sending request held records → t.memory.current r ∈ held →
    ∀ rs, t.memory.store.getResource r = some rs →
      (∀ change ∈ records.flatMap (Event.changesOn r), change.Timely) ∧ (request.1.early → rs.Takes r records)
  agrees : ∀ rs, t.memory.store.getResource r = some rs →
    ∃ durable, (InMemoryStore.replayed (stored ++ t.writer.flushed)).getResource r = some durable ∧ t.Behind r durable rs

/-- An action other than a delete. -/
def Action.deletesNothing : Action → Bool
  | .delete _ => false
  | _ => true

/-- An action other than what the log writer does for a compaction. -/
def Action.rewritesNothing : Action → Bool
  | .handle _ => false
  | _ => true

/-- A request that queues a commit takes no booking of the commit off with a later hold of it. -/
def SendsHolds (t : Tenant) : Action → Prop
  | .send i => ∀ entries, .holdsCommitted entries ∈ (t.tasks i).records → KeepsHolds entries
  | _ => True

/-! ### Steps -/

theorem Ahead.standing (ahead : t.Ahead stored r) (took : t.Took shards a t') (spares : a.deletesNothing) (id : Ulid)
    (stage : Stage) : t'.topology ≠ .deleting id stage :=
  took.standing (by rintro rfl; cases spares) (ahead.keeps id) stage

/-- A step leaves a resource, puts it in the table or applies a change to it. -/
theorem Ahead.memory (ahead : t.Ahead stored r) (took : t.Took shards a t') :
    t'.memory.store.getResource r = t.memory.store.getResource r ∨
    (∃ parentId name capacity bufferAfter, t.topology = .creating r parentId name capacity bufferAfter true ∧
      t.writer.outcomes .topology = some true ∧ t'.topology = .idle ∧
      t'.memory.store.getResource r = some (.new r parentId name capacity bufferAfter)) ∨
    ∃ i request held change rest, a = .apply i ∧ t.tasks i = .sent request held ((t.memory.current r, change) :: rest) ∧
      t'.memory.store.getResource r = (t.memory.store.getResource r).map (·.applySingle change) := by
  cases took with
  | @apply i request held h change rest phase =>
      have bound := ahead.inOrder.bound i
      rw [phase] at bound
      have routed := (bound.pending _ List.mem_cons_self).1
      have applied := Memory.apply_getResource (m := t.memory) routed r
      split at applied
      · next here =>
          subst here
          exact .inr (.inr ⟨i, request, held, change, rest, rfl, phase, applied⟩)
      · exact .inl applied
  | @finishCreate id parentId name capacity bufferAfter phase outcome =>
      by_cases here : r = id
      · subst here
        refine .inr (.inl ⟨_, _, _, _, phase, outcome, rfl, ?_⟩)
        simp [InMemoryStore.create_getResource]
      · left
        simp [InMemoryStore.create_getResource, here]
  | unlink phase | finishDelete phase => exact absurd phase (ahead.keeps _ _)
  | _ => exact .inl rfl

theorem Ahead.present (ahead : t.Ahead stored r) (took : t.Took shards a t')
    (before : (t.memory.store.getResource r).isSome) : (t'.memory.store.getResource r).isSome := by
  rcases ahead.memory took with same | ⟨_, _, _, _, _, _, _, created⟩ | ⟨_, _, _, _, _, _, _, applied⟩
  · rw [same]
    exact before
  · rw [created]
    rfl
  · rw [applied, Option.isSome_map]
    exact before

theorem Ahead.looked_took (ahead : t.Ahead stored r) (took : t.Took shards a t') (i : TaskId) :
    ∀ h ∈ (t'.tasks i).handles, h.1 = r → (t'.memory.store.getResource r).isSome := by
  intro h inside here
  apply ahead.present took
  rcases took.looked inside with before | found
  · exact ahead.looked i h before here
  · rw [← here]
    exact (lookUp_eq.mp found).2

/-- Who has a lock on a resource found it in the table. -/
theorem Ahead.held (ahead : t.Ahead stored r) {i : TaskId} (held : t.memory.current r ∈ (t.tasks i).held) :
    ∃ rs, t.memory.store.getResource r = some rs :=
  Option.isSome_iff_exists.mp (ahead.looked i _ (Task.held_handles held) rfl)

/-- What is newly queued of a resource has been decided on it. -/
theorem Ahead.queues (ahead : t.Ahead stored r) (took : t.Took shards a t') {change : Event}
    (inside : change ∈ t'.writer.unflushed.flatMap (Event.changesOn r)) :
    change ∈ t.writer.unflushed.flatMap (Event.changesOn r) ∨
      ∃ i request held records rs, t.tasks i = .sending request held records ∧ t.memory.current r ∈ held ∧
        t.memory.store.getResource r = some rs ∧ change ∈ records.flatMap (Event.changesOn r) := by
  have pushed : ∀ {command : WalCommand}, t'.writer = t.writer.push command →
      change ∈ t.writer.unflushed.flatMap (Event.changesOn r) ∨ change ∈ command.records.flatMap (Event.changesOn r) := by
    intro command same
    rw [same, ahead.inOrder.queued.front.push_unflushed, List.flatMap_append] at inside
    exact List.mem_append.mp inside
  cases took with
  | @send i request held records phase =>
      refine (pushed rfl).imp_right fun own => ?_
      rw [WalCommand.write_records] at own
      have mine := (changesFor_queued ahead.inOrder phase).2 (List.ne_nil_of_mem own)
      obtain ⟨rs, present⟩ := ahead.held (i := i) (by rw [phase]; exact mine)
      exact ⟨i, request, held, records, rs, phase, mine, present, own⟩
  | sendCreate | sendDelete | beginCompaction | submit =>
      rcases pushed rfl with before | now
      · exact .inl before
      · cases now
  | flush _ worked | handle _ worked =>
      obtain ⟨batch, freed, flushes⟩ := ahead.inOrder.flush worked
      left
      rw [flushes.unflushed, List.flatMap_append]
      exact List.mem_append_right _ inside
  | _ => exact .inl inside

theorem Ahead.absent_took (ahead : t.Ahead stored r) (took : t.Took shards a t')
    (gone : t'.memory.store.getResource r = none) : t'.writer.unflushed.flatMap (Event.changesOn r) = [] := by
  have before : t.memory.store.getResource r = none := by
    by_contra some
    have after := ahead.present took (Option.ne_none_iff_isSome.mp some)
    rw [gone] at after
    cases after
  rw [List.eq_nil_iff_forall_not_mem]
  intro change inside
  rcases ahead.queues took inside with old | ⟨_, _, _, _, rs, _, _, present, _⟩
  · rw [ahead.absent before] at old
    cases old
  · cases before.symm.trans present

theorem Ahead.timely_took (ahead : t.Ahead stored r) (took : t.Took shards a t') :
    ∀ change ∈ t'.writer.unflushed.flatMap (Event.changesOn r), change.Timely := by
  intro change inside
  rcases ahead.queues took inside with old | ⟨i, request, held, records, rs, phase, mine, present, own⟩
  · exact ahead.timely change old
  · exact (ahead.decided i _ _ _ phase mine rs present).1 change own

theorem Ahead.creating_took (ahead : t.Ahead stored r) (took : t.Took shards a t') {parentId : Option Ulid}
    {name : Option String} {capacity : UInt32} {bufferAfter : Option Ms} {sent : Bool}
    (creating : t'.topology = .creating r parentId name capacity bufferAfter sent) :
    t'.memory.store.getResource r = none ∧ (ResourceState.new r parentId name capacity bufferAfter).Timeline := by
  have kept : (∃ sent, t.topology = .creating r parentId name capacity bufferAfter sent) →
      t'.memory.store.getResource r = none ∧ (ResourceState.new r parentId name capacity bufferAfter).Timeline := by
    rintro ⟨sent', before⟩
    obtain ⟨absent, timeline⟩ := ahead.creating _ _ _ _ _ before
    refine ⟨?_, timeline⟩
    rcases ahead.memory took with same | ⟨_, _, _, _, _, _, idle, _⟩ | ⟨_, _, _, _, _, _, _, applied⟩
    · rw [same, absent]
    · cases idle.symm.trans creating
    · rw [applied, absent]
      rfl
  cases took with
  | create phase _ checked =>
      cases creating
      obtain ⟨wf, absent, _⟩ := Engine.checkCreate_ok checked
      exact ⟨absent, wf.timeline⟩
  | sendCreate phase =>
      cases creating
      exact kept ⟨_, phase⟩
  | delete | unlink | clear | sendDelete | finishCreate | finishDelete | abandon => cases creating
  | _ => exact kept ⟨_, creating⟩

/-- Once the create is answered its record is durable, with nothing of the resource behind it. -/
theorem Ahead.created_work (ahead : t.Ahead stored r) {writer : LogWriter} (took : t.writer.Took writer) {parentId : Option Ulid}
    {name : Option String} {capacity : UInt32} {bufferAfter : Option Ms}
    (creating : t.topology = .creating r parentId name capacity bufferAfter true)
    (outcome : writer.outcomes .topology = some true) :
    (InMemoryStore.replayed (stored ++ writer.flushed)).getResource r = some (.new r parentId name capacity bufferAfter) := by
  have own : t.topology.record = some (.resourceCreated r parentId name capacity bufferAfter) := by rw [creating]; rfl
  have nothing := ahead.absent (ahead.creating _ _ _ _ _ creating).1
  obtain ⟨_, worked⟩ := ahead.inOrder.queued.front.took took
  cases worked with
  | nothing n ok queue outcomes flushed unflushed running others =>
      rw [flushed]
      apply ahead.created _ _ _ _ creating
      rw [outcomes, LogWriter.answer_outcomes] at outcome
      split at outcome
      · next first =>
          cases outcome
          cases others rfl _ first
      · exact outcome
  | batch n running still queue outcomes flushed unflushed =>
      have untouched : ∀ ev ∈ (t.writer.queue.take n).flatMap WalCommand.records, ev.changesOn r = [] := by
        intro ev inside
        rw [unflushed, List.flatMap_append] at nothing
        exact List.flatMap_eq_nil_iff.mp (List.append_eq_nil_iff.mp nothing).1 ev inside
      rw [flushed, replayed_more]
      apply foldl_stepOn_created
      · intro ev inside
        obtain ⟨c, queued, recorded⟩ := List.mem_flatMap.mp inside
        rcases ahead.commands c (List.mem_of_mem_take queued) with ⟨_, changes⟩ | ⟨created, same, rfl⟩
        · left
          intro entry
          rw [Event.stepOn_change (changes ev recorded), untouched ev inside]
          exact Option.map_id_apply
        · right
          cases List.mem_singleton.mp recorded
          cases own.symm.trans same
          exact fun _ => if_pos rfl
      · rw [outcomes, LogWriter.answer_outcomes] at outcome
        split at outcome
        · next first =>
            right
            obtain ⟨c, queued, sender⟩ := List.mem_map.mp first
            rcases ahead.commands c (List.mem_of_mem_take queued) with ⟨others, _⟩ | ⟨created, same, rfl⟩
            · exact absurd sender others
            · cases own.symm.trans same
              exact ⟨_, List.mem_flatMap.mpr ⟨_, queued, List.mem_cons_self⟩, fun _ => if_pos rfl⟩
        · exact .inl (ahead.created _ _ _ _ creating outcome)

theorem Ahead.created_took (ahead : t.Ahead stored r) (took : t.Took shards a t') {parentId : Option Ulid}
    {name : Option String} {capacity : UInt32} {bufferAfter : Option Ms}
    (creating : t'.topology = .creating r parentId name capacity bufferAfter true)
    (outcome : t'.writer.outcomes .topology = some true) :
    (InMemoryStore.replayed (stored ++ t'.writer.flushed)).getResource r = some (.new r parentId name capacity bufferAfter) := by
  cases took with
  | sendCreate phase =>
      have unanswered := Function.update_self (f := t.writer.outcomes) Sender.topology none
      cases outcome.symm.trans unanswered
  | send =>
      apply ahead.created _ _ _ _ creating
      rw [← outcome]
      exact (LogWriter.push_outcomes (by simp)).symm
  | beginCompaction | submit =>
      apply ahead.created _ _ _ _ creating
      rw [← outcome]
      exact (LogWriter.push_outcomes fun same => by cases same).symm
  | flush _ worked | handle _ worked => exact ahead.created_work worked creating outcome
  | create | delete | unlink | clear | sendDelete | finishCreate | finishDelete | abandon => cases creating
  | _ => exact ahead.created _ _ _ _ creating outcome

/-- Nothing is owed to a resource that a request has locked which has queued nothing. -/
theorem owed_of_unsent (locks : t.Locks) {i : TaskId} (held : t.memory.current r ∈ (t.tasks i).held)
    (unsent : ∀ request held pending, t.tasks i ≠ .sent request held pending) : t.owed r = [] := by
  have locked := locked_of_held locks held
  have plain := plain_of_unsent unsent (t.memory.current r)
  simp only [owed, locked.1, locked.2, plain.1, ite_self]

/-- A resource in memory that is owed nothing is the durable one with the early changes. -/
theorem Ahead.timeline (ahead : t.Ahead stored r) {rs : ResourceState} (present : t.memory.store.getResource r = some rs)
    (owed : t.owed r = []) : rs.Timeline := by
  obtain ⟨durable, _, behind⟩ := ahead.agrees rs present
  have reaches := behind.reaches
  rw [owed, List.foldl_nil] at reaches
  rw [reaches]
  apply behind.timeline.foldl
  intro change inside
  obtain ⟨ev, queued, step⟩ := List.mem_flatMap.mp inside
  exact ahead.timely change (List.mem_flatMap.mpr ⟨ev, (List.mem_filter.mp queued).1, step⟩)

/-- What a request has decided under its lock stays right until it is queued. -/
theorem Ahead.decided_took (ahead : t.Ahead stored r) (took : t.Took shards a t') {i : TaskId} {request : Request.Prepared}
    {held : List Handle} {records : List Event} (phase : t'.tasks i = .sending request held records)
    (mine : t'.memory.current r ∈ held) {rs : ResourceState} (present : t'.memory.store.getResource r = some rs) :
    (∀ change ∈ records.flatMap (Event.changesOn r), change.Timely) ∧ (request.1.early → rs.Takes r records) := by
  rw [took.current ahead.inOrder.standing] at mine
  rcases took.sending phase with before | ⟨same, targets, claimed, now, rules, before, admitted⟩
  · apply ahead.decided i _ _ _ before mine
    have owner := ahead.inOrder.locks.owned i (t.memory.current r) (by rw [before]; exact mine)
    rcases ahead.memory took with same | ⟨_, _, _, _, creating, _, _, _⟩ | ⟨j, request', held', change, rest, _, sent, _⟩
    · rw [← same]
      exact present
    · obtain ⟨rs', there⟩ := ahead.held (i := i) (by rw [before]; exact mine)
      cases there.symm.trans (ahead.creating _ _ _ _ _ creating).1
    · -- Whoever applies a change to the resource has locked it.
      have bound := ahead.inOrder.bound j
      rw [sent] at bound
      have owner' := ahead.inOrder.locks.owned j _ (by rw [sent]; exact (bound.pending _ List.mem_cons_self).2.1)
      cases Option.some.inj (owner.symm.trans owner')
      cases before.symm.trans sent
  · rw [same] at present
    have shown : ∀ rs', t.guard held r = some rs' → rs' = rs := by
      intro rs' guarded
      obtain ⟨h, found, read⟩ := Option.bind_eq_some_iff.mp guarded
      have here : h.1 = r := by simpa using List.find?_some found
      have inHeld := List.mem_of_find?_eq_some found
      have now := ahead.inOrder.handles i h (by rw [before]; exact inHeld) here
      rw [now, Memory.read_current, present] at read
      exact (Option.some.inj read).symm
    refine ⟨?_, fun early => Request.admitted_takes request.2 admitted early shown⟩
    apply Request.admitted_timely request.2 admitted
    intro rs' guarded
    rw [shown rs' guarded]
    obtain ⟨durable, _, behind⟩ := ahead.agrees rs present
    apply ahead.timeline present
    exact owed_of_unsent ahead.inOrder.locks (by rw [before]; exact mine) (by simp [before])

/-! ### What memory is ahead by -/

/-- Records of other resources. -/
theorem Behind.untouched {durable rs : ResourceState} (behind : t.Behind r durable rs) (owed : t'.owed r = t.owed r)
    {new : List Event} (unflushed : t'.writer.unflushed = t.writer.unflushed ++ new)
    (nothing : new.flatMap (Event.changesOn r) = []) : t'.Behind r durable rs where
  timeline := behind.timeline
  reaches := by
    rw [owed, earlyOn_append unflushed, filter_untouched nothing, List.append_nil]
    exact behind.reaches
  tightens := by
    rw [unflushed, List.filter_append]
    apply ResourceState.tightens_append.mpr
    exact ⟨behind.tightens, ResourceState.tightens_untouched (filter_untouched nothing)⟩

/-- The records of a request that has locked the resource. -/
theorem Ahead.send (ahead : t.Ahead stored r) {i : TaskId} {request : Request.Prepared} {held : List Handle}
    {records : List Event} (phase : t.tasks i = .sending request held records)
    (holds : ∀ entries, .holdsCommitted entries ∈ records → KeepsHolds entries) (memory : t'.memory = t.memory)
    (lockedBy : t'.lockedBy = t.lockedBy)
    (tasks : t'.tasks = Function.update t.tasks i (.sent request held (pendingOn held records)))
    (writer : t'.writer = t.writer.push (.write (.request i) records)) {durable rs : ResourceState}
    (present : t.memory.store.getResource r = some rs) (behind : t.Behind r durable rs) : t'.Behind r durable rs := by
  have unflushed : t'.writer.unflushed = t.writer.unflushed ++ records := by
    rw [writer, ahead.inOrder.queued.front.push_unflushed, WalCommand.write_records]
  rcases ahead.inOrder.send phase memory lockedBy tasks writer with
    ⟨mine, _, owed, waits, locked⟩ | ⟨_, nothing, _, owed⟩
  · have reaches := behind.reaches
    have timeline := ahead.timeline present owed
    rw [owed, List.foldl_nil] at reaches
    have kinds := ahead.inOrder.kinds i _ _ _ phase
    cases early : request.1.early with
    | true =>
        have all : records.filter Event.early = records :=
          List.filter_eq_self.mpr fun ev inside => (kinds ev inside).trans early
        have takes := (ahead.decided i _ _ _ phase mine rs present).2 early
        refine ⟨behind.timeline, ?_, ?_⟩
        · rw [Tenant.owed, waits, early, locked, earlyOn_append unflushed, all, List.foldl_append, ← reaches]
          rfl
        · rw [unflushed, List.filter_append, all]
          apply ResourceState.tightens_append.mpr
          refine ⟨behind.tightens, ?_⟩
          rw [← earlyOn, ← reaches]
          exact takes.tightens timeline holds
    | false =>
        have none : records.filter Event.early = [] :=
          List.filter_eq_nil_iff.mpr fun ev inside => by rw [kinds ev inside, early]; exact Bool.false_ne_true
        refine ⟨behind.timeline, ?_, ?_⟩
        · rw [Tenant.owed, waits, early, earlyOn_append unflushed, none]
          simpa using reaches
        · rw [unflushed, List.filter_append, none, List.append_nil]
          exact behind.tightens
  · exact behind.untouched owed unflushed nothing

/-- A step of the writer. -/
theorem Ahead.work (ahead : t.Ahead stored r) {writer : LogWriter} (took : t.writer.Took writer) {rs : ResourceState}
    (present : t.memory.store.getResource r = some rs) : ∃ durable,
      (InMemoryStore.replayed (stored ++ writer.flushed)).getResource r = some durable ∧
        Behind { t with writer } r durable rs := by
  obtain ⟨batch, freed, flushes⟩ := ahead.inOrder.flush took
  obtain ⟨durable, rebuilt, behind⟩ := ahead.agrees rs present
  have changes : ∀ ev ∈ batch, ev.isChange ∨ (∀ entry, ev.stepOn r entry = entry) ∧ ev.changesOn r = [] := by
    intro ev inside
    have running := flushes.running (List.ne_nil_of_mem inside)
    have queued : ev ∈ t.writer.queue.flatMap WalCommand.records := by
      rw [← ahead.inOrder.queued.front.queued running, flushes.unflushed]
      exact List.mem_append_left _ inside
    obtain ⟨c, inQueue, recorded⟩ := List.mem_flatMap.mp queued
    rcases ahead.commands c inQueue with ⟨_, changes⟩ | ⟨created, same, rfl⟩
    · exact .inl (changes ev recorded)
    · right
      cases List.mem_singleton.mp recorded
      cases phase : t.topology with
      | idle => rw [phase] at same; cases same
      | deleting => exact absurd phase (ahead.keeps _ _)
      | creating id _ _ _ _ sent =>
          rw [phase] at same
          cases sent <;> cases same
          have other : id ≠ r := by
            rintro rfl
            cases present.symm.trans (ahead.creating _ _ _ _ _ phase).1
          exact ⟨fun _ => if_neg other, rfl⟩
  have unflushed : t.writer.unflushed.filter Event.early =
      batch.filter Event.early ++ writer.unflushed.filter Event.early := by
    rw [flushes.unflushed, List.filter_append]
  have early : t.earlyOn r = (batch.filter Event.early).flatMap (Event.changesOn r) ++
      earlyOn { t with writer } r := by
    simp only [earlyOn, unflushed, List.flatMap_append]
  refine ⟨(batch.flatMap (Event.changesOn r)).foldl ResourceState.applySingle durable, ?_, ?_, ?_, ?_⟩
  · rw [flushes.flushed, replayed_more, foldl_stepOn_changes changes, rebuilt]
    rfl
  · apply behind.timeline.foldl
    intro change inside
    apply ahead.timely change
    rw [flushes.unflushed, List.flatMap_append]
    exact List.mem_append_left _ inside
  · rw [flushes.owed, List.foldl_append, behind.reaches, ← List.foldl_append, ← flushes.early, List.foldl_append]
  · by_cases some : freed = []
    · -- What has become durable of the resource is the front of its early changes.
      have front := flushes.early
      rw [some, List.append_nil, early] at front
      rw [List.append_cancel_right front]
      have tightens := behind.tightens
      rw [unflushed] at tightens
      exact (ResourceState.tightens_append.mp tightens).2
    · exact ResourceState.tightens_untouched (flushes.ends some)

theorem Ahead.agrees_took (ahead : t.Ahead stored r) (took : t.Took shards a t') (holds : t.SendsHolds a)
    {rs : ResourceState} (present : t'.memory.store.getResource r = some rs) : ∃ durable,
      (InMemoryStore.replayed (stored ++ t'.writer.flushed)).getResource r = some durable ∧ t'.Behind r durable rs := by
  have standing := ahead.inOrder.standing
  cases quiet : a.quiet with
  | true =>
      obtain ⟨locked, waits⟩ := took.locked ahead.inOrder.locks standing quiet
      have owed : t'.owed r = t.owed r := by simp only [owed, locked, waits]
      obtain ⟨new, unflushed, nothing, flushed⟩ : ∃ new : List Event, t'.writer.unflushed = t.writer.unflushed ++ new ∧
          new.flatMap (Event.changesOn r) = [] ∧ t'.writer.flushed = t.writer.flushed := by
        rcases took.quiet_writer quiet with same | ⟨command, pushed, none⟩
        · exact ⟨[], by rw [same, List.append_nil], rfl, by rw [same]⟩
        · exact ⟨command.records, by rw [pushed, ahead.inOrder.queued.front.push_unflushed], none, by rw [pushed]; rfl⟩
      rw [flushed]
      rcases ahead.memory took with same | ⟨_, _, _, _, creating, outcome, _, created⟩ | ⟨_, _, _, _, _, applying, _⟩
      · obtain ⟨durable, rebuilt, behind⟩ := ahead.agrees rs (same ▸ present)
        exact ⟨durable, rebuilt, behind.untouched owed unflushed nothing⟩
      · obtain ⟨absent, timeline⟩ := ahead.creating _ _ _ _ _ creating
        cases created.symm.trans present
        refine ⟨_, ahead.created _ _ _ _ creating outcome, Behind.untouched ⟨timeline, ?_, ?_⟩ owed unflushed nothing⟩
        · -- Nobody has a lock on what is not in the table.
          have free : t.owed r = [] := by
            have unheld : ∀ i, changesFor (t.tasks i) (t.memory.current r) = [] := by
              intro i
              simp only [changesFor, List.map_eq_nil_iff, List.filter_eq_nil_iff, decide_eq_true_eq]
              intro p pending here
              obtain ⟨rs', there⟩ := ahead.held (i := i) (here ▸ ((ahead.inOrder.bound i).pending p pending).2.1)
              cases absent.symm.trans there
            cases owner : t.lockedBy (t.memory.current r) <;>
              simp only [Tenant.owed, Tenant.locked, owner, Option.elim_none, Option.elim_some, unheld, ite_self]
          rw [free, show t.earlyOn r = [] from filter_untouched (ahead.absent absent)]
        · exact ResourceState.tightens_untouched (filter_untouched (ahead.absent absent))
      · rw [applying] at quiet
        cases quiet
  | false =>
      cases took with
      | send phase =>
          obtain ⟨durable, rebuilt, behind⟩ := ahead.agrees rs present
          simp only [SendsHolds, phase, Task.records] at holds
          refine ⟨durable, rebuilt, ?_⟩
          apply ahead.send phase holds _ _ _ _ present behind <;> rfl
      | @apply i request held h change rest phase may =>
          have took : t.Took shards (.apply i) _ := .apply phase may
          have current := took.current standing
          obtain ⟨_, _, owed⟩ := ahead.inOrder.apply phase may current rfl rfl rfl
          have kept : ∀ {before after : ResourceState}, t.memory.store.getResource r = some before →
              (if h = t.memory.current r then [change] else []).foldl ResourceState.applySingle before = after →
              ∃ durable, (InMemoryStore.replayed (stored ++ t.writer.flushed)).getResource r = some durable ∧
                Behind { t.setTask i (.sent request held rest) with memory := t.memory.apply h change } r durable after := by
            intro before after there applied
            obtain ⟨durable, rebuilt, behind⟩ := ahead.agrees before there
            refine ⟨durable, rebuilt, behind.timeline, ?_, behind.tightens⟩
            have reaches := behind.reaches
            rw [owed, List.foldl_append, applied] at reaches
            exact reaches
          have bound := ahead.inOrder.bound i
          rw [phase] at bound
          have after : (t.memory.apply h change).store.getResource r = some rs := present
          rw [Memory.apply_getResource (bound.pending _ List.mem_cons_self).1] at after
          by_cases here : h = t.memory.current r
          · rw [if_pos here.symm] at after
            obtain ⟨before, there, applied⟩ := Option.map_eq_some_iff.mp after
            apply kept there
            rw [if_pos here]
            exact applied
          · rw [if_neg (Ne.symm here)] at after
            apply kept after
            rw [if_neg here]
            rfl
      | fail phase late failed =>
          obtain ⟨durable, rebuilt, behind⟩ := ahead.agrees rs present
          exact ⟨durable, rebuilt, behind.untouched (ahead.inOrder.locks.fail phase late failed)
            (List.append_nil _).symm rfl⟩
      | flush _ worked | handle _ worked =>
          exact ahead.work worked present
      | _ => cases quiet

theorem Ahead.took (ahead : t.Ahead stored r) (took : t.Took shards a t') (spares : a.deletesNothing)
    (holds : t.SendsHolds a) : t'.Ahead stored r where
  inOrder := ahead.inOrder.took took (by rintro rfl; cases spares)
  keeps := ahead.standing took spares
  looked := ahead.looked_took took
  commands := ahead.commands.took ahead.inOrder.queued ahead.inOrder.bound took
  absent := ahead.absent_took took
  creating _ _ _ _ _ := ahead.creating_took took
  created _ _ _ _ := ahead.created_took took
  timely := ahead.timely_took took
  decided _ _ _ _ phase mine _ present := ahead.decided_took took phase mine present
  agrees _ present := ahead.agrees_took took holds present

end Tenant

/-! ## Reads -/

/-- An engine whose memory is what its log replays to. -/
structure Engine.InStep (e : Engine) : Prop where
  replays : ∀ r, (InMemoryStore.replayed e.log).getResource r = e.store.getResource r
  timelines : ∀ r rs, e.store.getResource r = some rs → rs.Timeline

theorem Engine.start_inStep (clock maxHoldTtlMs : Ms) : (Engine.start clock maxHoldTtlMs).InStep where
  replays _ := rfl
  timelines _ _ present := by cases present

/-- An engine is built in step with a log that leaves no orphan. -/
theorem Engine.opened_inStep (clock maxHoldTtlMs : Ms) {events : List Event} (order : List Ulid)
    (parents : ∀ c rs p, (InMemoryStore.replayed events).getResource c = some rs → rs.parentId = some p →
      ((InMemoryStore.replayed events).getResource p).isSome)
    (timelines : ∀ r rs, (InMemoryStore.replayed events).getResource r = some rs → rs.Timeline) :
    (Engine.opened clock maxHoldTtlMs events order).InStep := by
  have same : InMemoryStore.rebuilt events order = InMemoryStore.replayed events :=
    InMemoryStore.foldl_detachOrphan parents order
  refine ⟨fun r => ?_, fun r rs present => timelines r rs ?_⟩
  · exact congrArg (·.getResource r) same.symm
  · rw [← same]
    exact present

namespace Tenant

variable {shards : Shards} {t : Tenant} {stored : List Event}

theorem on_ahead {e : Engine} (inStep : e.InStep) (r : Ulid) : (on e).Ahead e.log r where
  inOrder := on_inOrder e r
  keeps _ _ same := by cases same
  looked _ _ inside := (List.not_mem_nil inside).elim
  commands _ inside := (List.not_mem_nil inside).elim
  absent _ := rfl
  creating _ _ _ _ _ same := by cases same
  created _ _ _ _ same := by cases same
  timely _ inside := (List.not_mem_nil inside).elim
  decided _ _ _ _ same := by cases same
  agrees rs present := by
    refine ⟨rs, ?_, inStep.timelines r rs present, rfl, trivial⟩
    rw [show (on e).writer.flushed = [] from rfl, List.append_nil, inStep.replays]
    exact present

/-- The queued records of holds, bookings and commits on a resource that are not flushed. -/
def earlyRecords (t : Tenant) (r : Ulid) : List Event :=
  t.writer.unflushed.filter fun ev => ev.early && !(ev.changesOn r).isEmpty

/-- Whoever reads a resource under its lock sees what the flushed records and the queued ones of
    its allocations replay to, and sees nothing free that the flushed records alone leave taken. -/
def ReadsLess (stored : List Event) (t : Tenant) : Prop :=
  ∀ r rs, t.memory.store.getResource r = some rs → t.lockedBy (t.memory.current r) = none →
    (InMemoryStore.replayed (stored ++ t.writer.flushed ++ t.earlyRecords r)).getResource r = some rs ∧
    ∃ durable, (InMemoryStore.replayed (stored ++ t.writer.flushed)).getResource r = some durable ∧
      ∀ query nonBlocking blocking now instant, query.end ≤ i64Max → query.start ≤ instant → instant < query.end →
        Covers (availability rs query nonBlocking blocking now) instant →
        Covers (availability durable query nonBlocking blocking now) instant

theorem earlyRecords_changes (r : Ulid) : (t.earlyRecords r).flatMap (Event.changesOn r) = t.earlyOn r := by
  unfold earlyRecords earlyOn
  induction t.writer.unflushed with
  | nil => rfl
  | cons ev rest ih =>
      cases kind : ev.early with
      | false => simpa [kind] using ih
      | true =>
          cases own : ev.changesOn r with
          | nil => simpa [kind, own] using ih
          | cons first others => simpa [kind, own] using ih

/-- Nobody owes anything to a resource that nobody has locked. -/
theorem Ahead.readsLess (ahead : ∀ r, t.Ahead stored r) : t.ReadsLess stored := by
  intro r rs present free
  have owed : t.owed r = [] := by simp only [owed, Tenant.locked, free, Option.elim_none, ite_self]
  have timeline := (ahead r).timeline present owed
  obtain ⟨durable, rebuilt, behind⟩ := (ahead r).agrees rs present
  have reaches : rs = (t.earlyOn r).foldl ResourceState.applySingle durable := by
    have reaches := behind.reaches
    rwa [owed] at reaches
  refine ⟨?_, durable, rebuilt, ?_⟩
  · have changes : ∀ ev ∈ t.earlyRecords r, ev.isChange ∨ (∀ entry, ev.stepOn r entry = entry) ∧ ev.changesOn r = [] := by
      intro ev inside
      have kind := (List.mem_filter.mp inside).2
      left
      cases ev <;> first | rfl | cases kind
    rw [List.append_assoc, replayed_more, foldl_stepOn_changes changes, rebuilt, earlyRecords_changes, reaches]
    rfl
  · intro query nonBlocking blocking now instant range started notEnded
    apply ResourceState.Fuller.availability _ behind.timeline timeline started notEnded (lt_of_lt_of_le notEnded range)
    rw [reaches]
    exact behind.tightens.fuller

/-- Until a compaction rewrites it, the log's file holds the flushed records. -/
theorem file_kept {e : Engine} (reached : Reaches (step shards) (fun _ a => a.rewritesNothing) (on e) t) :
    t.writer.file = e.log ++ t.writer.flushed := by
  have kept : t.writer.attached = true ∧ t.writer.file = e.log ++ t.writer.flushed :=
    reached.invariant (I := fun t => t.writer.attached = true ∧ t.writer.file = e.log ++ t.writer.flushed)
      ⟨rfl, (List.append_nil _).symm⟩ fun t a t' inv plain taken => by
        cases Tenant.took taken with
        | handle => cases plain
        | flush flushed =>
            unfold LogWriter.flush at flushed
            simp only at flushed
            split at flushed
            · split at flushed
              · cases flushed
              · cases flushed
                exact ⟨inv.1, by simp only [inv.1, inv.2, ↓reduceIte, List.append_assoc]⟩
              · cases flushed
                exact inv
            · cases flushed
        | _ => exact inv
  exact kept.2

theorem later_valid : (⟨30, 40⟩ : Span).Valid := by decide

/-- An empty tenant gets a room of capacity one. -/
def opening (room : Ulid) : List Action := [.create room none none 1 none, .sendTopology, .flush 1 true, .finishTopology]

/-- A request for one resource up to its check of the ids. -/
def reaching (i : TaskId) (given : Request) : List Action := [.start i given, .lookUp i, .lock i, .allLocked i]

/-- Two holds with one id on two rooms. When one of them is removed the index has lost the id of
    the other, and a commit on its room may name that id for another booking. -/
def takingOff : List Action := List.flatten [
  opening 1, opening 2,
  reaching 0 (.placeHold 7 1 ⟨⟨10, 20⟩, slot_valid⟩ 100), [.claim 0], placed 0,
  reaching 1 (.placeHold 9 1 ⟨⟨30, 40⟩, later_valid⟩ 100), reaching 2 (.placeHold 9 2 ⟨⟨30, 40⟩, later_valid⟩ 100),
  [.claim 1, .claim 2], placed 2, [.start 3 (.removeHold 9)], placed 1,
  [.start 4 (.commitHolds [(7, 9, none), (9, 8, none)]), .flush 3 true],
  [.lookUp 3, .lock 3, .allLocked 3, .check 3 0 noRules, .send 3, .flush 1 true, .apply 3, .release 3],
  [.lookUp 4, .lock 4, .allLocked 4, .claim 4, .claim 4, .check 4 0 noRules, .send 4],
  [.apply 4, .apply 4, .apply 4, .apply 4, .release 4]]

def takenOff : Tenant := (Machine.run (step oneShard) takingOff (on (.start 0 1000))).getD (on (.start 0 1000))

theorem takenOff_ran : Machine.run (step oneShard) takingOff (on (.start 0 1000)) = some takenOff := by
  have possible : (Machine.run (step oneShard) takingOff (on (.start 0 1000))).isSome := by decide +kernel
  obtain ⟨t, ran⟩ := Option.isSome_iff_exists.mp possible
  rw [takenOff, ran]
  rfl

/-- The free time of the first room as memory has it and as the flushed records have it. -/
theorem takenOff_rooms : takenOff.lockedBy (takenOff.memory.current 1) = none ∧
    (takenOff.memory.store.getResource 1).map (availability · ⟨0, 100⟩ [⟨0, 100⟩] [] 0) =
      some [⟨0, 30⟩, ⟨40, 100⟩] ∧
    ((InMemoryStore.replayed takenOff.writer.flushed).getResource 1).map (availability · ⟨0, 100⟩ [⟨0, 100⟩] [] 0) =
      some [⟨0, 10⟩, ⟨20, 30⟩, ⟨40, 100⟩] := by decide +kernel

/-- A hold up to where it can be queued, on a new room. -/
def deciding : List Action :=
  opening 1 ++ reaching 0 (.placeHold 7 1 ⟨⟨10, 20⟩, slot_valid⟩ 100) ++ [.claim 0, .check 0 0 noRules]

end Tenant

end Deltat
