import Deltat.CompactionDurability
import Deltat.LogOpening
import Deltat.RequestsReturn

/-! # What a log can make a request do

Replay accepts any span that starts before it ends and any buffer. What it accepts is enough for
the requests as long as no buffer is negative and no hold ends by the epoch: then no request
panics, in any state that the tenant built on the log gets into.
-/

namespace Deltat

open Lib Lib.Machine Limits

/-! ## What replay accepts -/

/-- A record with proper spans of 64-bit numbers. -/
def Event.Read (ev : Event) : Prop := ev.spansValid = true ∧ ev.Representable

namespace Wal

variable {k : Crates}

theorem scanFrom_read (canonical : k.Canonical) {fileLen fuel validLen last : Nat} {before events : List Event}
    {rest : List UInt8} (scanned : scanFrom k fileLen fuel before validLen rest = .ok (events, last))
    (known : ∀ ev ∈ before, ev.Read) : ∀ ev ∈ events, ev.Read := by
  induction fuel generalizing before validLen rest with
  | zero =>
      cases scanned
      exact known
  | succ fuel ih =>
      unfold scanFrom at scanned
      have stop : (Except.ok (before, validLen) : Except IoError (List Event × Nat)) = .ok (events, last) →
          ∀ ev ∈ events, ev.Read := by
        intro same
        cases same
        exact known
      split at scanned
      · exact stop scanned
      · simp only at scanned
        split at scanned
        · split at scanned
          · exact stop scanned
          · cases scanned
        · split at scanned
          · exact stop scanned
          · split at scanned
            · exact stop scanned
            · split at scanned
              · split at scanned
                · exact stop scanned
                · cases scanned
              · split at scanned
                · next ev decoded =>
                    split at scanned
                    · next valid =>
                        apply ih scanned
                        intro other inside
                        rcases List.mem_append.mp inside with earlier | now
                        · exact known other earlier
                        · rw [List.mem_singleton.mp now]
                          exact ⟨valid, (canonical _ ev decoded).1⟩
                    · split at scanned
                      · exact stop scanned
                      · cases scanned
                · split at scanned
                  · exact stop scanned
                  · cases scanned

theorem replay_read (canonical : k.Canonical) {file : Option (List UInt8)} {events : List Event}
    (accepted : replay k file = .ok events) : ∀ ev ∈ events, ev.Read := by
  obtain ⟨⟨found, rest⟩, scanned, same⟩ := Outcome.bind_ok.mp accepted
  cases same
  cases file with
  | none =>
      cases scanned
      exact List.forall_mem_nil _
  | some bytes =>
      obtain ⟨⟨headerLen, version⟩, _, scanned⟩ := Outcome.bind_ok.mp scanned
      obtain ⟨⟨events, validLen⟩, ran, same⟩ := Outcome.bind_ok.mp scanned
      cases same
      exact scanFrom_read canonical ran (List.forall_mem_nil _)

end Wal

/-- What a record puts on a resource has a proper span. -/
theorem Event.Read.adds {ev change : Event} (read : ev.Read) (step : change ∈ ev.perResource) {i : Interval}
    (added : change.adds = some i) : i.span.start < i.span.end ∧ i.span.end ≤ i64Max := by
  obtain ⟨valid, fits⟩ := read
  cases ev with
  | holdsCommitted commits =>
      obtain ⟨c, inside, isEvent⟩ := List.mem_flatMap.mp step
      have proper := of_decide_eq_true (List.all_eq_true.mp valid c inside)
      simp only [HoldCommit.events, List.mem_cons, List.not_mem_nil, or_false] at isEvent
      rcases isEvent with rfl | rfl
      · cases added
      · cases added
        exact ⟨proper, ((fits.2 c inside).span).2.2⟩
  | ruleAdded | ruleUpdated =>
      cases List.mem_singleton.mp step
      cases added
      exact ⟨of_decide_eq_true valid, fits.2.2⟩
  | holdPlaced | bookingConfirmed =>
      cases List.mem_singleton.mp step
      cases added
      exact ⟨of_decide_eq_true valid, fits.1.2.2⟩
  | _ =>
      cases List.mem_singleton.mp step
      cases added

namespace ResourceState

variable {rs : ResourceState}

/-- Sorted intervals with proper 64-bit spans. -/
structure Lined (rs : ResourceState) : Prop where
  sorted : rs.intervals.Pairwise fun a b => a.span.start ≤ b.span.start
  proper : ∀ i ∈ rs.intervals, i.span.start < i.span.end ∧ i.span.end ≤ i64Max

theorem Lined.applySingle (lined : rs.Lined) {change : Event}
    (adds : ∀ i, change.adds = some i → i.span.start < i.span.end ∧ i.span.end ≤ i64Max) : (rs.applySingle change).Lined where
  sorted := applySingle_sorted lined.sorted change
  proper i inside := (mem_applySingle inside).elim (adds i) (lined.proper i)

theorem Lined.foldl {changes : List Event} (adds : ∀ change ∈ changes, ∀ i, change.adds = some i →
    i.span.start < i.span.end ∧ i.span.end ≤ i64Max) (lined : rs.Lined) : (changes.foldl ResourceState.applySingle rs).Lined := by
  induction changes generalizing rs with
  | nil => exact lined
  | cons change rest ih =>
      obtain ⟨here, later⟩ := List.forall_mem_cons.mp adds
      exact ih later (lined.applySingle here)

/-- What keeps the requests on a resource from a panic, beside the order of its intervals: no
    negative buffer, and no hold that ends by the epoch or is too wide to be offered again. -/
structure Tame (rs : ResourceState) : Prop where
  buffer : 0 ≤ rs.buffer
  ends : ∀ i ∈ rs.intervals, i.kind.isHold = true → 0 < i.span.end
  short : rs.parentId = none → ∀ i ∈ rs.intervals, i.kind.isHold = true → i.span.durationMs ≤ i64Max

theorem Lined.steady (lined : rs.Lined) (tame : rs.Tame) : rs.Steady where
  orderly := ⟨lined.sorted, fun i inside => (lined.proper i inside).1, fun i inside => (lined.proper i inside).2, tame.buffer⟩
  ends := tame.ends
  short := tame.short

end ResourceState

namespace InMemoryStore

/-- The resources of a log that replay accepts are in order. -/
theorem replayed_lined {events : List Event} (read : ∀ ev ∈ events, ev.Read) {r : Ulid} {rs : ResourceState}
    (found : (replayed events).getResource r = some rs) : rs.Lined := by
  rw [replayed_getResource] at found
  have fold : ∀ (later : List Event) (entry : Option ResourceState), (∀ ev ∈ later, ev.Read) →
      (∀ rs, entry = some rs → rs.Lined) → ∀ rs,
        later.foldl (fun entry ev => ev.stepOn r entry) entry = some rs → rs.Lined := by
    intro later
    induction later with
    | nil => exact fun _ _ lined => lined
    | cons ev rest ih =>
        intro entry each lined
        obtain ⟨here, others⟩ := List.forall_mem_cons.mp each
        apply ih _ others
        intro rs after
        have changed : entry.map ((ev.changesOn r).foldl ResourceState.applySingle) = some rs → rs.Lined := by
          intro mapped
          obtain ⟨old, present, rfl⟩ := Option.map_eq_some_iff.mp mapped
          apply (lined old present).foldl
          intro change inside i added
          exact here.adds (List.mem_filter.mp inside).1 added
        cases ev with
        | resourceCreated id =>
            simp only [Event.stepOn] at after
            split at after
            · cases after
              exact ⟨.nil, List.forall_mem_nil _⟩
            · exact lined rs after
        | resourceDeleted id =>
            simp only [Event.stepOn] at after
            split at after
            · cases after
            · exact lined rs after
        | _ => exact changed after
  exact fold events none read (fun _ absent => by cases absent) rs found

theorem rebuilt_lined {events : List Event} (read : ∀ ev ∈ events, ev.Read) (order : List Ulid) {r : Ulid} {rs : ResourceState}
    (found : (rebuilt events order).getResource r = some rs) : rs.Lined := by
  have kept : ∀ (order : List Ulid) (s : InMemoryStore),
      ((order.foldl detachOrphan s).getResource r).map (·.intervals) = (s.getResource r).map (·.intervals) := by
    intro order
    induction order with
    | nil => exact fun _ => rfl
    | cons id rest ih => exact fun s => (ih _).trans (detachOrphan_intervals id r)
  have same := kept order (replayed events)
  have found : (order.foldl detachOrphan (replayed events)).getResource r = some rs := found
  rw [found] at same
  obtain ⟨old, present, intervals⟩ := Option.map_eq_some_iff.mp same.symm
  obtain ⟨sorted, proper⟩ := replayed_lined read present
  rw [intervals] at sorted proper
  exact ⟨sorted, proper⟩

end InMemoryStore

/-! ## What requests write -/

/-- A change that a request writes to such resources leaves them so. -/
structure Event.Gentle (change : Event) : Prop where
  adds : ∀ i, change.adds = some i → i.span.start < i.span.end ∧ i.span.end ≤ i64Max
  holds : ∀ i, change.adds = some i → i.kind.isHold = true → 0 < i.span.end ∧ i.span.durationMs ≤ i64Max
  buffers : ∀ rs : ResourceState, 0 ≤ rs.buffer → 0 ≤ (change.setFields rs).buffer

theorem ResourceState.Steady.lined {rs : ResourceState} (steady : rs.Steady) : rs.Lined :=
  ⟨steady.orderly.sorted, fun i inside => ⟨steady.orderly.proper i inside, steady.orderly.upper i inside⟩⟩

theorem ResourceState.Steady.applySingle {rs : ResourceState} (steady : rs.Steady) {change : Event} (gentle : change.Gentle) :
    (rs.applySingle change).Steady := by
  have buffer : (rs.applySingle change).buffer = (change.setFields rs).buffer := by
    simp only [ResourceState.buffer, (applySingle_fields rs change).2.1]
  apply (steady.lined.applySingle gentle.adds).steady
  constructor
  case buffer =>
    rw [buffer]
    exact gentle.buffers rs steady.orderly.buffer
  case ends =>
    intro i inside isHold
    rcases ResourceState.mem_applySingle inside with added | there
    · exact (gentle.holds i added isHold).1
    · exact steady.ends i there isHold
  case short =>
    intro root i inside isHold
    rw [ResourceState.applySingle_parentId] at root
    rcases ResourceState.mem_applySingle inside with added | there
    · exact (gentle.holds i added isHold).2
    · exact steady.short root i there isHold

theorem ResourceState.Steady.collected {rs : ResourceState} (steady : rs.Steady) (now cutoff : Ms) :
    (rs.collected now cutoff).Steady := by
  have kept : ∀ i ∈ (rs.collected now cutoff).intervals, i ∈ rs.intervals := fun i inside => (List.mem_filter.mp inside).1
  constructor
  case orderly =>
    exact ⟨steady.orderly.sorted.sublist List.filter_sublist, fun i inside => steady.orderly.proper i (kept i inside),
      fun i inside => steady.orderly.upper i (kept i inside), steady.orderly.buffer⟩
  case ends => exact fun i inside => steady.ends i (kept i inside)
  case short => exact fun root i inside => steady.short root i (kept i inside)

theorem Event.gentle_of_removal {change : Event} (adds : change.adds = none) (fields : ∀ rs, change.setFields rs = rs) :
    change.Gentle where
  adds i added := by rw [adds] at added; cases added
  holds i added := by rw [adds] at added; cases added
  buffers rs duration := (fields rs).symm ▸ duration

/-- A validated span can be added. -/
theorem Event.gentle_of_valid {change : Event} {i : Interval} (adds : change.adds = some i)
    (proper : i.span.start < i.span.end) (valid : Conflict.validateSpan i.span = .ok ())
    (fields : ∀ rs, change.setFields rs = rs) : change.Gentle := by
  obtain ⟨_, after, upper, _, width⟩ := Asserting.validateSpan_admits proper valid
  constructor
  case adds => exact fun j added => by rw [adds] at added; cases added; exact ⟨proper, upper⟩
  case holds => exact fun j added _ => by rw [adds] at added; cases added; exact ⟨after, width⟩
  case buffers => exact fun rs duration => (fields rs).symm ▸ duration

namespace Request

variable {e : Engine} {guard : Ulid → Option ResourceState} {rules : Ulid → InheritedRules} {targets : List Ulid}
  {r : Request} {records : List Event}

theorem checkUpdate_buffers {name : Option (Option String)} {capacity : Option UInt32} {bufferAfter : Option (Option Ms)}
    (valid : Engine.checkUpdate name capacity bufferAfter = .ok ()) (id : Ulid) (rs : ResourceState) (before : 0 ≤ rs.buffer) :
    0 ≤ ((Event.resourceUpdated id name capacity bufferAfter).setFields rs).buffer := by
  obtain ⟨_, _, valid⟩ := Outcome.bind_ok.mp valid
  obtain ⟨_, buffers, _⟩ := Outcome.bind_ok.mp valid
  cases bufferAfter with
  | none => exact before
  | some buffer =>
      cases buffer with
      | none => exact le_refl 0
      | some b =>
          have valid : Conflict.validateBuffer (some b) = .ok () := buffers
          exact (Conflict.validateBuffer_ok.mp valid b rfl).1

/-- On steady resources every record of an admitted request is gentle. -/
theorem admitRecords_gentle (checked : r.Checked) (steady : ∀ rid rs, guard rid = some rs → rs.Steady)
    (passed : admitRecords e guard rules targets r = .ok records) :
    ∀ change ∈ records.flatMap Event.perResource, change.Gentle := by
  have one : ∀ {ev : Event} {rid : Ulid}, ev.resourceId? = some rid → ev.Gentle →
      ∀ change ∈ [ev].flatMap Event.perResource, change.Gentle := by
    intro ev rid routed gentle
    rw [List.flatMap_singleton, Event.perResource_single routed]
    exact List.forall_mem_singleton.mpr gentle
  cases r with
  | addRule id rid span blocking =>
      obtain ⟨_, _, passed⟩ := Outcome.bind_ok.mp passed
      obtain ⟨_, _, same⟩ := Outcome.bind_ok.mp passed
      cases same
      exact @one _ rid rfl (Event.gentle_of_valid rfl span.2 checked fun _ => rfl)
  | updateRule id span blocking =>
      obtain ⟨rid, _, _, rfl, _, _⟩ := admitEntity_ok passed
      exact @one _ rid rfl (Event.gentle_of_valid rfl span.2 checked fun _ => rfl)
  | removeRule id | removeHold id | cancelBooking id =>
      obtain ⟨rid, _, _, rfl, _, _⟩ := admitEntity_ok passed
      exact @one _ rid rfl (Event.gentle_of_removal rfl fun _ => rfl)
  | placeHold id rid span expiresAt =>
      obtain ⟨_, _, same⟩ := Outcome.bind_ok.mp passed
      cases same
      exact @one _ rid rfl (Event.gentle_of_valid rfl span.2 checked.1 fun _ => rfl)
  | confirmBooking id rid span label =>
      obtain ⟨_, _, same⟩ := Outcome.bind_ok.mp passed
      cases same
      exact @one _ rid rfl (Event.gentle_of_valid rfl span.2 checked.1 fun _ => rfl)
  | batchPlaceHolds holds =>
      obtain ⟨_, _, same⟩ := Outcome.bind_ok.mp passed
      cases same
      rw [Engine.perResource_batch fun _ => rfl]
      refine List.forall_mem_map.mpr fun h inside => ?_
      exact Event.gentle_of_valid rfl h.2.2.1.2 (checked.2 h inside).1 fun _ => rfl
  | batchConfirmBookings bookings =>
      obtain ⟨_, _, same⟩ := Outcome.bind_ok.mp passed
      cases same
      rw [Engine.perResource_batch fun _ => rfl]
      refine List.forall_mem_map.mpr fun b inside => ?_
      exact Event.gentle_of_valid rfl b.2.2.1.2 (checked.2 b inside).1 fun _ => rfl
  | commitHolds commits =>
      obtain ⟨entries, admitted, same⟩ := Outcome.bind_ok.mp passed
      cases same
      intro change inside
      rw [List.flatMap_singleton] at inside
      obtain ⟨entry, member, isEvent⟩ := List.mem_flatMap.mp inside
      obtain ⟨c, _, entered⟩ := Outcome.mapM_ok_result admitted member
      obtain ⟨rs, hold, held, found, _, rfl⟩ := admitEntry_ok entered
      obtain ⟨there, _, _⟩ := Engine.findIntervalOfKind_mem found
      have lined := (steady _ rs held).lined.proper hold there
      simp only [HoldCommit.events, List.mem_cons, List.not_mem_nil, or_false] at isEvent
      rcases isEvent with rfl | rfl
      · exact Event.gentle_of_removal rfl fun _ => rfl
      · constructor
        case adds => exact fun i added => by cases added; exact lined
        case holds => exact fun i added isHold => by cases added; cases isHold
        case buffers => exact fun _ duration => duration
  | updateResource id name capacity bufferAfter =>
      obtain ⟨_, _, same⟩ := Outcome.bind_ok.mp passed
      cases same
      apply @one _ id rfl
      constructor
      case adds => exact fun i added => by cases added
      case holds => exact fun i added => by cases added
      case buffers => exact checkUpdate_buffers checked id

end Request

/-! ## Runs -/

/-- What a tenant does while it serves requests, garbage collection included. -/
inductive Work where
  | step (a : Tenant.Action)
  /-- Garbage collection reaches a resource that nobody has locked. -/
  | collect (r : Ulid) (now cutoff : Ms)

namespace Tenant

variable {shards : Shards} {t t' : Tenant} {a : Action}

def work (shards : Shards) (t : Tenant) : Work → Option Tenant
  | .step a => t.step shards a
  | .collect r now cutoff =>
      if t.lockedBy (t.memory.current r) = none then
        some { t with memory := { t.memory with store := Engine.gcResource now cutoff t.memory.store r } }
      else none

/-- Every resource in memory is steady, and stays so whatever is on its way there. -/
structure Steady (t : Tenant) : Prop where
  routed : t.Routed
  memory : ∀ h rs, t.memory.read h = some rs → rs.Steady
  sending : ∀ i request held records, t.tasks i = .sending request held records →
    ∀ change ∈ records.flatMap Event.perResource, change.Gentle
  pending : ∀ i, ∀ p ∈ (t.tasks i).pending, p.2.Gentle
  creating : ∀ id parentId name capacity bufferAfter sent,
    t.topology = .creating id parentId name capacity bufferAfter sent → 0 ≤ bufferAfter.getD 0

theorem steady_new {id : Ulid} {parentId : Option Ulid} {name : Option String} {capacity : UInt32} {bufferAfter : Option Ms}
    (duration : 0 ≤ bufferAfter.getD 0) : (ResourceState.new id parentId name capacity bufferAfter).Steady where
  orderly := ⟨.nil, List.forall_mem_nil _, List.forall_mem_nil _, duration⟩
  ends := List.forall_mem_nil _
  short _ := List.forall_mem_nil _

theorem Steady.read (steady : t.Steady) (took : t.Took shards a t') {h : Handle} {rs : ResourceState}
    (found : t'.memory.read h = some rs) : rs.Steady := by
  cases took with
  | @apply i _ _ h' change _ phase =>
      have pending : (h', change) ∈ (t.tasks i).pending := by
        rw [phase]
        exact List.mem_cons_self
      simp only [Memory.apply_read (steady.routed i _ pending)] at found
      split at found
      · obtain ⟨old, before, rfl⟩ := Option.map_eq_some_iff.mp found
        exact (steady.memory _ old before).applySingle (steady.pending i _ pending)
      · exact steady.memory h rs found
  | unlink => exact steady.memory h rs ((Memory.unlink_read ..).symm.trans found)
  | finishCreate phase =>
      simp only [Memory.create_read] at found
      split at found
      · cases found
        exact steady_new (steady.creating _ _ _ _ _ _ phase)
      · exact steady.memory h rs found
  | finishDelete => exact steady.memory h rs (Memory.remove_read found)
  | _ => exact steady.memory h rs found

/-- The records about to be sent have passed their checks on steady resources. -/
theorem Steady.send (steady : t.Steady) (took : t.Took shards a t') {j : TaskId} {request : Request.Prepared}
    {held : List Handle} {records : List Event} (phase : t'.tasks j = .sending request held records) :
    ∀ change ∈ records.flatMap Event.perResource, change.Gentle := by
  by_cases own : a.task = some j
  · cases took with
    | check _ _ admitted =>
        cases own
        rw [setTask_self] at phase
        cases phase
        apply Request.admitRecords_gentle request.2 _ admitted
        intro rid rs guarded
        obtain ⟨h, _, read⟩ := Option.bind_eq_some_iff.mp guarded
        exact steady.memory h rs read
    | start | lookUp | lock | allLocked | claim | send | apply | release | fail | answer | refuse =>
        cases own
        simp at phase
    | _ => cases own
  · rw [took.tasks_other own] at phase
    exact steady.sending j request held records phase

theorem Steady.took (steady : t.Steady) (took : t.Took shards a t') : t'.Steady where
  routed := steady.routed.took took
  memory h rs found := steady.read took found
  sending j request held records phase := steady.send took phase
  pending j p inside := by
    rcases took.pending inside with before | ⟨request, held, records, phase, queued, _⟩
    · exact steady.pending j p before
    · exact steady.sending j request held records phase p.2 (mem_pendingOn.mp queued).2.1
  creating id parentId name capacity bufferAfter sent phase := by
    cases took with
    | create _ _ checked =>
        cases phase
        obtain ⟨_, _, checked⟩ := Outcome.bind_ok.mp checked
        obtain ⟨_, _, checked⟩ := Outcome.bind_ok.mp checked
        obtain ⟨_, buffers, _⟩ := Outcome.bind_ok.mp checked
        cases given : bufferAfter with
        | none => exact le_refl 0
        | some b => exact (Conflict.validateBuffer_ok.mp buffers b given).1
    | sendCreate before =>
        cases phase
        exact steady.creating _ _ _ _ _ _ before
    | delete | unlink | clear | sendDelete | finishCreate | finishDelete | abandon => cases phase
    | _ => exact steady.creating _ _ _ _ _ _ phase

/-- Garbage collection only takes intervals away. -/
theorem Steady.worked (steady : t.Steady) {w : Work} (done : t.work shards w = some t') : t'.Steady := by
  cases w with
  | step a => exact steady.took (Tenant.took done)
  | collect r now cutoff =>
      simp only [work] at done
      split at done
      · cases done
        constructor
        case routed => exact steady.routed
        case memory =>
          intro h rs found
          have known := steady.memory h
          simp only [Memory.read, Engine.gcResource_getResource] at found known
          split at found
          · next current =>
              simp only [current, ↓reduceIte] at known
              split at found
              · next same =>
                  obtain ⟨old, before, rfl⟩ := Option.map_eq_some_iff.mp found
                  exact (known old (same.symm ▸ before)).collected now cutoff
              · exact known rs found
          · next orphaned =>
              simp only [orphaned, ↓reduceIte] at known
              exact known rs found
        case sending => exact steady.sending
        case pending => exact steady.pending
        case creating => exact steady.creating
      · cases done

theorem steady_opened {events : List Event} (read : ∀ ev ∈ events, ev.Read) {order : List Ulid}
    (tame : ∀ r rs, (InMemoryStore.rebuilt events order).getResource r = some rs → rs.Tame) (clock maxHoldTtlMs : Ms) :
    (on (.opened clock maxHoldTtlMs events order)).Steady where
  routed i p inside := by cases inside
  memory h rs found := by
    have found : (if h.2 = 0 then (InMemoryStore.rebuilt events order).getResource h.1 else none) = some rs := found
    split at found
    · exact (InMemoryStore.rebuilt_lined read order found).steady (tame _ rs found)
    · cases found
  sending i request held records phase := by cases phase
  pending i p inside := by cases inside
  creating id parentId name capacity bufferAfter sent phase := by cases phase

end Tenant

/-! ## Requests -/

/-- A request that reads or takes time, with its arguments. -/
inductive Asked where
  | computeAvailability (resourceId : Ulid) (queryStart queryEnd : Ms) (minDurationMs : Option Ms)
  | placeHold (id resourceId : Ulid) (span : ProperSpan) (expiresAt : Ms) (offerLimit : Nat)
  | confirmBooking (id resourceId : Ulid) (span : ProperSpan) (label : Option String) (offerLimit : Nat)
  | batchPlaceHolds (holds : List (Ulid × Ulid × ProperSpan × Ms))
  | batchConfirmBookings (bookings : List (Ulid × Ulid × ProperSpan × Option String))
  | commitHolds (commits : List (Ulid × Ulid × Option String)) (offerLimit : Nat)

/-- The request fails an assertion on what it sees. -/
def Asked.Panics (e : Engine) : Asked → Prop
  | computeAvailability resourceId queryStart queryEnd minDurationMs =>
      (Asserting.computeAvailability e.store e.clock resourceId queryStart queryEnd minDurationMs).run = none
  | placeHold id resourceId span expiresAt offerLimit =>
      (Asserting.checkHold e id resourceId span.1 expiresAt offerLimit).run = none
  | confirmBooking id resourceId span label offerLimit =>
      (Asserting.checkBooking e id resourceId span.1 label offerLimit).run = none
  | batchPlaceHolds holds => (Asserting.checkHolds e (holds.map fun h => (h.1, h.2.1, h.2.2.1.1, h.2.2.2))).run = none
  | batchConfirmBookings bookings =>
      (Asserting.checkBookings e (bookings.map fun b => (b.1, b.2.1, b.2.2.1.1, b.2.2.2))).run = none
  | commitHolds commits offerLimit => (Asserting.checkCommits e commits offerLimit).run = none

/-- On steady resources no request panics. -/
theorem Asked.not_panics {e : Engine} (steady : e.store.Steady) (asked : Asked) : ¬ asked.Panics e := by
  have answered : ∀ {ε α : Type} {x : Asserted ε α} {answer : Except ε α}, x = returns answer → x.run ≠ none := by
    rintro ε α _ answer rfl panicked
    cases panicked
  cases asked with
  | computeAvailability => exact answered (Asserting.computeAvailability_returns steady ..)
  | placeHold _ _ span => exact answered (Asserting.checkHold_returns steady span.2 ..)
  | confirmBooking _ _ span => exact answered (Asserting.checkBooking_returns steady span.2 ..)
  | batchPlaceHolds holds =>
      apply answered (Asserting.checkHolds_returns steady _)
      exact List.forall_mem_map.mpr fun h _ => h.2.2.1.2
  | batchConfirmBookings bookings =>
      apply answered (Asserting.checkBookings_returns steady _)
      exact List.forall_mem_map.mpr fun b _ => b.2.2.1.2
  | commitHolds => exact answered (Asserting.checkCommits_returns steady ..)

/-- What a request may see of a tenant at work: each resource as it was in memory in some state
    reached, and not more intervals on it than the sweep can count. -/
def Engine.Sees (e : Engine) (shards : Shards) (start : Tenant) : Prop :=
  ∀ r rs, e.store.getResource r = some rs → rs.intervals.length ≤ u32Max ∧
    ∃ h t, Reaches (Tenant.work shards) (fun _ _ => True) start t ∧ t.memory.read h = some rs

/-- The engine starts on every log that replay accepts. Where no resource then has a negative
    buffer, a hold that ends by the epoch, or one without a parent and wider than 64 bits, no
    request panics in any run. -/
theorem accepted_log_returns {k : Crates} (decodes : k.Decodes) (canonical : k.Canonical) {file : Option (List UInt8)}
    {events : List Event} (accepted : Wal.replay k file = .ok events) {order : List Ulid}
    (tame : ∀ r rs, (InMemoryStore.rebuilt events order).getResource r = some rs → rs.Tame) :
    (∀ staged, ∃ wal, Wal.open k ⟨file, staged⟩ = .ok wal) ∧ ∀ (shards : Shards) (clock maxHoldTtlMs : Ms) (e : Engine),
      e.Sees shards (.on (.opened clock maxHoldTtlMs events order)) → ∀ asked : Asked, ¬ asked.Panics e := by
  constructor
  · intro staged
    obtain ⟨⟨_, _, _⟩, scanned, same⟩ := Outcome.bind_ok.mp accepted
    cases same
    have scanned : Wal.scan k (⟨file, staged⟩ : Disk).file = .ok (events, _, _) := scanned
    obtain ⟨wal, _, _, opened, _⟩ := Wal.opens_accepted decodes canonical scanned
    exact ⟨wal, opened⟩
  · intro shards clock maxHoldTtlMs e sees asked
    have opened := Tenant.steady_opened (Wal.replay_read canonical accepted) tame clock maxHoldTtlMs
    apply asked.not_panics
    constructor
    · intro r rs present
      obtain ⟨_, h, t, reached, found⟩ := sees r rs present
      have steady : t.Steady := reached.invariant opened fun _ _ _ steady _ done => steady.worked done
      exact steady.memory h rs found
    · exact fun r rs present => (sees r rs present).1

/-- A resource is created and held. -/
def heldLog : List Event := [.resourceCreated 1 none none 1 none, .holdPlaced 2 1 ⟨100, 200⟩ 1000]

theorem heldLog_accepted : Wal.replay .bundled (some (Wal.fileOf .bundled heldLog)) = .ok heldLog := by
  apply Wal.replay_fileOf bundled_decodes
  rintro ev (_ | ⟨_, _ | ⟨_, ⟨⟩⟩⟩)
  · exact ⟨⟨fun _ named => (by cases named), fun _ given => (by cases given)⟩, rfl, by decide⟩
  · refine ⟨?_, rfl, by decide⟩
    simp only [Event.Representable, Span.Fits, Bincode.FitsMs]
    decide

theorem heldLog_resource (r : Ulid) (rs : ResourceState) (found : (InMemoryStore.rebuilt heldLog []).getResource r = some rs) :
    rs = (ResourceState.new 1 none none 1 none).applySingle (.holdPlaced 2 1 ⟨100, 200⟩ 1000) := by
  have found : (InMemoryStore.replayed heldLog).getResource r = some rs := found
  rw [InMemoryStore.replayed_getResource] at found
  by_cases first : 1 = r
  · subst first
    cases found
    rfl
  · simp only [heldLog, List.foldl_cons, Event.stepOn, first, ↓reduceIte] at found
    cases found

theorem held_commit_returns : ¬ (Asked.commitHolds [(2, 3, none)] 1).Panics (.opened 0 1000 heldLog []) := by
  have tame : ∀ r rs, (InMemoryStore.rebuilt heldLog []).getResource r = some rs → rs.Tame := by
    intro r rs found
    rw [heldLog_resource r rs found]
    exact ⟨by decide, by decide, fun _ => by decide⟩
  apply (accepted_log_returns bundled_decodes bundled_canonical heldLog_accepted tame).2 ⟨1, fun _ => 0⟩ 0 1000
  intro r rs present
  refine ⟨?_, (r, 0), _, .start, present⟩
  rw [heldLog_resource r rs present]
  decide

/-- A resource whose buffer is negative. -/
def negativeLog : List Event := [.resourceCreated 1 none none 1 (some (-1000))]

theorem negative_hold_panics : Wal.replay .bundled (some (Wal.fileOf .bundled negativeLog)) = .ok negativeLog ∧
    (Asked.placeHold 2 1 ⟨⟨100, 200⟩, by decide⟩ 1000 0).Panics (.opened 0 1000 negativeLog []) := by
  constructor
  · apply Wal.replay_fileOf bundled_decodes
    intro ev inside
    cases List.mem_singleton.mp inside
    refine ⟨⟨fun _ named => (by cases named), fun ms given => ?_⟩, rfl, by decide⟩
    cases given
    unfold Bincode.FitsMs
    decide
  · rfl

end Deltat
