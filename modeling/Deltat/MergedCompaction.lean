import Deltat.CompactionWindow
import Deltat.RecordedWindow

/-! # What a compaction keeps

A compaction copies each resource between two of its changes, while the log writer records
what is flushed. A request queues and applies its changes under the lock of the resource, so a
copy has all that was queued in front of it, and the file it ends in restores what memory
comes to. The exception is an id that the snapshot carries and that was given anew while the
copies were taken: the merge drops its addition and keeps its removal.
-/

namespace Deltat

open Lib Lib.Slots Machine

/-- Where an id that the snapshot carries is last added to a resource in the record, this is all
    that the record does to it, and the copy of that resource has it. -/
def Compaction.KeepsCarried (snapshot recorded : List Event) : Prop :=
  ∀ r, ∀ x ∈ snapshot.filterMap Event.addedId, ∀ front w,
    writes x (recorded.flatMap (Event.changesOn r)) = front ++ [w] → w.fills = true →
      front = [] ∧ ∃ change ∈ snapshot.flatMap (Event.changesOn r), change.adds.map (·.id) = some x

namespace Tenant

variable {shards : Shards} {t t' : Tenant} {a : Action} {r : Ulid}

/-- A resource once everything that is queued on it is applied. -/
def settled (t : Tenant) (r : Ulid) : Option ResourceState :=
  (t.memory.store.getResource r).map ((t.locked r).foldl ResourceState.applySingle)

/-- What was recorded of a resource since a compaction began, and what is queued of it. -/
def recordedOn (t : Tenant) (r : Ulid) : List Event := t.inWindow.flatMap (Event.changesOn r)

/-- No id that a request queues for a resource is on that resource. -/
def SendsNew (t : Tenant) : Action → Prop
  | .send i => ∀ r rs, t.memory.store.getResource r = some rs →
      ResourceState.AddsNew ((t.tasks i).records.flatMap (Event.changesOn r)) rs
  | _ => True

/-- A compaction does not fail, and its merge keeps what the snapshot carries. -/
def MergesKept (t : Tenant) : Action → Prop
  | .handle fault => fault = none ∧ ∀ snapshot behind, t.writer.queue = .compact snapshot :: behind →
      Compaction.KeepsCarried snapshot (t.writer.recording.getD [])
  | _ => True

theorem locked_eq (t : Tenant) (r : Ulid) : t.locked r = t.owed r ++ t.heldBack r := by
  unfold owed heldBack
  split
  · rfl
  · exact (List.append_nil _).symm

theorem settled_isSome : (t.settled r).isSome = (t.memory.store.parentEntry r).isSome := by
  rw [settled, Option.isSome_map, InMemoryStore.isSome_parentEntry]

/-- The copies of a compaction against what was recorded on both sides of each. -/
structure Merging (shards : Shards) (t : Tenant) : Prop where
  serving : t.Serving
  grown : t.Grown
  window : t.Window shards
  inOrder : ∀ r, t.InOrder r
  still : t.topology = .idle
  phased : t.Phased
  based : ∀ r whole, t.settled r = some whole → BasedOn (t.recordedOn r) whole
  copied : ∀ snapshots found rest, t.compaction = .snapshotting snapshots found rest →
    ∀ copy ∈ snapshots, ∀ whole, t.settled copy.id = some whole → CopiedWithin (t.recordedOn copy.id) [] copy whole
  compacts : ∀ ahead events behind, t.writer.queue = ahead ++ .compact events :: behind →
    ∃ snapshots, events = Compaction.snapshotEvents snapshots ∧
      InMemoryStore.Copied t.memory.store.parentEntry snapshots [] ∧
      ∀ copy ∈ snapshots, ∀ whole, t.settled copy.id = some whole →
        CopiedWithin ((t.writer.recording.getD [] ++ ahead.flatMap WalCommand.records).flatMap (Event.changesOn copy.id))
          ((behind.flatMap WalCommand.records).flatMap (Event.changesOn copy.id)) copy whole

/-! ### What is settled -/

/-- Only a request that queues its records changes what a resource comes to. -/
theorem Merging.settled_same (merging : t.Merging shards) (took : t.Took shards a t') (stays : a.leavesTopology)
    (other : ∀ i, a ≠ .send i) (r : Ulid) : t'.settled r = t.settled r := by
  have inOrder := merging.inOrder r
  have same : ∀ {t' : Tenant}, t'.memory = t.memory → t'.locked r = t.locked r → t'.settled r = t.settled r := by
    intro t' memory locked
    rw [settled, settled, memory, locked]
  cases quiet : a.quiet with
  | true =>
      have locked := (took.locked inOrder.locks inOrder.standing quiet).1
      apply same _ locked
      cases took with
      | create | delete | unlink | clear | sendCreate | sendDelete | finishCreate | finishDelete | abandon => cases stays
      | send | apply | fail | flush | handle => cases quiet
      | _ => rfl
  | false =>
      cases took with
      | send => exact absurd rfl (other _)
      | @apply i request held h change rest phase may =>
          have took : t.Took shards (.apply i) _ := .apply phase may
          obtain ⟨back, _, owed⟩ := inOrder.apply phase may (took.current inOrder.standing) rfl rfl rfl
          have bound := inOrder.bound i
          rw [phase] at bound
          have routed := (bound.pending _ List.mem_cons_self).1
          have table := Memory.apply_getResource (m := t.memory) routed r
          rw [settled, settled, locked_eq, locked_eq t, owed, back]
          by_cases here : h = t.memory.current r
          · rw [if_pos here.symm] at table
            rw [if_pos here]
            exact (congrArg _ table).trans (Option.map_map ..)
          · rw [if_neg (Ne.symm here)] at table
            rw [if_neg here]
            exact congrArg _ table
      | fail _ _ refused =>
          have stopped := merging.serving.queued.refused _ (fun same => by cases same) refused
          cases merging.serving.running.symm.trans stopped
      | @flush _ _ writer _ worked | @handle _ writer _ worked =>
          obtain ⟨n, ok, _, outcomes, _⟩ := worked.answers
          have answered : ({ t with writer } : Tenant).locked r = t.locked r ∧ _ :=
            merging.serving.queued.locked_answered rfl rfl rfl outcomes
          exact same rfl answered.1
      | _ => cases quiet

/-- What a request queues comes on top of what its resources come to, and is new to them. -/
theorem Merging.settled_send (merging : t.Merging shards) {i : TaskId} (took : t.Took shards (.send i) t')
    (new : t.SendsNew (.send i)) (r : Ulid) :
    t'.settled r = (t.settled r).map
      (((t.tasks i).records.flatMap (Event.changesOn r)).foldl ResourceState.applySingle) ∧
      ∀ whole, t.settled r = some whole → ResourceState.AddsNew ((t.tasks i).records.flatMap (Event.changesOn r)) whole := by
  cases took with
  | @send _ request held records phase =>
      have memory : ({ t.setTask i (.sent request held (pendingOn held records)) with
        writer := t.writer.push (.write (.request i) records) } : Tenant).memory = t.memory := rfl
      have sent := (merging.inOrder r).send phase memory rfl rfl rfl
      have decided := new r
      rw [phase] at decided ⊢
      rcases sent with ⟨_, back, owed, _, locked⟩ | ⟨_, nothing, back, owed⟩
      · have settled : t.settled r = t.memory.store.getResource r := by
          rw [Tenant.settled, locked_eq, owed, back]
          exact Option.map_id' ..
        refine ⟨?_, fun whole known => decided whole (settled ▸ known)⟩
        rw [settled, Tenant.settled, locked]
        rfl
      · simp only [Task.records, nothing]
        refine ⟨?_, fun _ _ => trivial⟩
        rw [Tenant.settled, Tenant.settled, locked_eq, locked_eq t, owed, back]
        exact (Option.map_id' ..).symm

/-! ### Every step -/

theorem Merging.serves (merging : t.Merging shards) (took : t.Took shards a t') (undisturbed : t.Undisturbed a) :
    t'.Serving := merging.serving.took took undisturbed.harmless

theorem leavesTopology_still (took : t.Took shards a t') (stays : a.leavesTopology) : t'.topology = t.topology := by
  cases took with
  | create | delete | unlink | clear | sendCreate | sendDelete | finishCreate | finishDelete | abandon => cases stays
  | _ => rfl

/-- Without creates and deletes the table keeps its resources and their parents. -/
theorem leavesTopology_entries (took : t.Took shards a t') (stays : a.leavesTopology) :
    t'.memory.store.parentEntry = t.memory.store.parentEntry := by
  cases took with
  | create | delete | unlink | clear | sendCreate | sendDelete | finishCreate | finishDelete | abandon => cases stays
  | apply => exact InMemoryStore.sameTree_parentEntry (Memory.apply_sameTree ..)
  | _ => rfl

theorem Merging.based_took (merging : t.Merging shards) (took : t.Took shards a t') (stays : a.leavesTopology)
    (undisturbed : t.Undisturbed a) (new : t.SendsNew a) {whole : ResourceState} (known : t'.settled r = some whole) :
    BasedOn (t'.recordedOn r) whole := by
  have serving' := merging.serves took undisturbed
  have settled := fun other => merging.settled_same took stays other r
  -- Nothing of the resource is queued, but the record may begin later.
  have same : (∀ i, a ≠ .send i) → ∀ before, t.inWindow = before ++ t'.inWindow → BasedOn (t'.recordedOn r) whole := by
    intro other before split
    rw [settled other] at known
    have based := merging.based r whole known
    rw [recordedOn, split, List.flatMap_append] at based
    exact based.behind
  have pushed : (∀ i, a ≠ .send i) → ∀ {command : WalCommand}, t'.writer = t.writer.push command → command.records = [] →
      BasedOn (t'.recordedOn r) whole := by
    intro other command writer empty
    apply same other []
    rw [merging.serving.inWindow_push writer, empty]
    exact (List.append_nil _).symm
  cases took with
  | @send i request held records phase =>
      have sent : t.Took shards (.send i) _ := .send phase
      obtain ⟨settled, adds⟩ := merging.settled_send sent new r
      obtain ⟨before, was, rfl⟩ := Option.map_eq_some_iff.mp (settled.symm.trans known)
      rw [phase] at adds ⊢
      rw [recordedOn, merging.serving.inWindow_push rfl, WalCommand.write_records, List.flatMap_append]
      exact (merging.based r before was).more (adds before was)
  | flush taken =>
      cases undisturbed
      obtain ⟨before, split⟩ := (merging.serving.inWindow_flush taken serving').2
      exact same (fun i same => by cases same) before split
  | handle taken =>
      cases undisturbed
      obtain ⟨before, split⟩ := merging.serving.inWindow_handle taken (fun _ same => by cases same) serving'
      exact same (fun i same => by cases same) before split
  | beginCompaction | submit => exact pushed (fun i same => by cases same) rfl rfl
  | create | delete | unlink | clear | sendCreate | sendDelete | finishCreate | finishDelete | abandon => cases stays
  | _ => exact same (fun i same => by cases same) [] rfl

/-- Nothing is queued on a resource that nobody has locked. -/
theorem settled_free (free : t.lockedBy (t.memory.current r) = none) : t.settled r = t.memory.store.getResource r := by
  rw [settled, locked, free]
  exact Option.map_id' ..

theorem Merging.copied_took (merging : t.Merging shards) (took : t.Took shards a t') (stays : a.leavesTopology)
    (undisturbed : t.Undisturbed a) (new : t.SendsNew a) {snapshots : List ResourceState} {found : Option Handle}
    {rest : List Ulid} (phase' : t'.compaction = .snapshotting snapshots found rest) {copy : ResourceState}
    (member : copy ∈ snapshots) {whole : ResourceState} (known : t'.settled copy.id = some whole) :
    CopiedWithin (t'.recordedOn copy.id) [] copy whole := by
  have serving' := merging.serves took undisturbed
  have settled := fun other => merging.settled_same took stays other copy.id
  have same : (∀ i, a ≠ .send i) → (∃ found rest, t.compaction = .snapshotting snapshots found rest) →
      t'.recordedOn copy.id = t.recordedOn copy.id → CopiedWithin (t'.recordedOn copy.id) [] copy whole := by
    rintro other ⟨found, rest, phase⟩ recorded
    rw [settled other] at known
    rw [recorded]
    exact merging.copied snapshots found rest phase copy member whole known
  cases took with
  | @send i request held records phase =>
      have sent : t.Took shards (.send i) _ := .send phase
      obtain ⟨settled, adds⟩ := merging.settled_send sent new copy.id
      obtain ⟨before, was, rfl⟩ := Option.map_eq_some_iff.mp (settled.symm.trans known)
      rw [phase] at adds ⊢
      rw [recordedOn, merging.serving.inWindow_push rfl, WalCommand.write_records, List.flatMap_append]
      exact (merging.copied _ _ _ phase' copy member before was).more (adds before was)
  | flush taken =>
      cases undisturbed
      obtain ⟨records, recording⟩ := merging.phased.recorded (by rw [phase']; exact fun same => by cases same)
        (by rw [phase']; exact fun same => by cases same) fun submitted => by cases phase'.symm.trans submitted
      apply same (fun i same => by cases same) ⟨_, _, phase'⟩
      rw [recordedOn, recordedOn, (merging.serving.inWindow_flush taken serving').1 (by rw [recording]; rfl)]
  | handle taken =>
      cases undisturbed
      rcases LogWriter.handle_whole taken merging.serving.running with ⟨_, head, _⟩ | ⟨events, _, head, _⟩
      · have began := merging.window.begins (by rw [head]; exact List.mem_cons_self)
        cases phase'.symm.trans began
      · have submitted := (merging.window.compacts events (by rw [head]; exact List.mem_cons_self)).1
        cases phase'.symm.trans submitted
  | allListed =>
      cases phase'
      cases member
  | lookSnapshot phase =>
      cases phase'
      exact same (fun i same => by cases same) ⟨_, _, phase⟩ rfl
  | @snapshot _ h _ rs phase free present =>
      cases phase'
      rcases List.mem_append.mp member with before | now
      · rw [settled fun i same => by cases same] at known
        exact merging.copied _ _ _ phase copy before whole known
      · cases List.mem_singleton.mp now
        have current := (merging.window.copied _ _ _ phase).1 h rfl
        rw [current] at free present
        rw [Memory.read_current] at present
        have own : copy.id = h.1 := merging.grown.planted.named _ _ present
        have all : t.settled copy.id = some copy := by rw [own, settled_free free, present]
        rw [settled fun i same => by cases same] at known
        cases all.symm.trans known
        exact (merging.based copy.id copy all).copied
  | create | delete | unlink | clear | sendCreate | sendDelete | finishCreate | finishDelete | abandon => cases stays
  | beginCompaction | enterWindow | list | submit | finishCompaction => cases phase'
  | _ => exact same (fun i same => by cases same) ⟨_, _, phase'⟩ rfl

theorem Merging.compacts_took (merging : t.Merging shards) (took : t.Took shards a t') (stays : a.leavesTopology)
    (undisturbed : t.Undisturbed a) (new : t.SendsNew a) {ahead behind : List WalCommand} {events : List Event}
    (queue : t'.writer.queue = ahead ++ .compact events :: behind) :
    ∃ snapshots, events = Compaction.snapshotEvents snapshots ∧
      InMemoryStore.Copied t'.memory.store.parentEntry snapshots [] ∧
      ∀ copy ∈ snapshots, ∀ whole, t'.settled copy.id = some whole →
        CopiedWithin ((t'.writer.recording.getD [] ++ ahead.flatMap WalCommand.records).flatMap (Event.changesOn copy.id))
          ((behind.flatMap WalCommand.records).flatMap (Event.changesOn copy.id)) copy whole := by
  have settled := fun other => merging.settled_same took stays other
  rw [leavesTopology_entries took stays]
  rcases merging.phased.compact_took merging.serving took undisturbed.harmless queue with
    ⟨snapshots, rfl, phase, rfl, rfl, rfl⟩ | ⟨ahead₀, behind₀, before, window, _, added⟩
  · cases took with
    | submit =>
        refine ⟨snapshots, rfl, (merging.window.copied _ _ _ phase).2, fun copy member whole known => ?_⟩
        have copied := merging.copied _ _ _ phase copy member whole known
        rw [recordedOn, merging.serving.inWindow_eq] at copied
        exact copied
  · obtain ⟨snapshots, rfl, copied, within⟩ := merging.compacts _ _ _ before
    rw [window]
    refine ⟨snapshots, rfl, copied, fun copy member whole known => ?_⟩
    rcases added with ⟨other, rfl⟩ | ⟨command, rfl | ⟨i, rfl⟩, writer, rfl⟩
    · rw [settled other] at known
      exact within copy member whole known
    · cases stays
    · obtain ⟨settled, adds⟩ := merging.settled_send took new copy.id
      obtain ⟨old, was, rfl⟩ := Option.map_eq_some_iff.mp (settled.symm.trans known)
      cases took with
      | @send _ request held records phase =>
          have same : t.writer.queue ++ [.write (.request i) records] = t.writer.queue ++ [command] :=
            congrArg LogWriter.queue writer
          obtain rfl := List.singleton_inj.mp (List.append_cancel_left same)
          have more : ((behind₀ ++ [WalCommand.write (.request i) records]).flatMap WalCommand.records).flatMap
              (Event.changesOn copy.id) = (behind₀.flatMap WalCommand.records).flatMap (Event.changesOn copy.id) ++
                records.flatMap (Event.changesOn copy.id) := by
            rw [List.flatMap_append, List.flatMap_singleton, WalCommand.write_records, List.flatMap_append]
          rw [phase] at adds ⊢
          rw [more]
          exact (within copy member old was).append (adds old was)

theorem Merging.took (merging : t.Merging shards) (took : t.Took shards a t') (stays : a.leavesTopology)
    (undisturbed : t.Undisturbed a) (new : t.SendsNew a) : t'.Merging shards where
  serving := merging.serves took undisturbed
  grown := merging.grown.took took (merging.serving.goesOn took)
  window := merging.window.took merging.serving merging.grown took undisturbed
  inOrder r := (merging.inOrder r).took took (by rintro rfl; cases stays)
  still := (leavesTopology_still took stays).trans merging.still
  phased := merging.phased.took merging.serving took undisturbed.harmless
  based _ _ known := merging.based_took took stays undisturbed new known
  copied _ _ _ phase _ member _ known := merging.copied_took took stays undisturbed new phase member known
  compacts _ _ _ queue := merging.compacts_took took stays undisturbed new queue

/-! ### The file -/

/-- The file and what is queued for it restore what every resource comes to. -/
def Restored (t : Tenant) : Prop := ∀ r,
  Option.Rel ResourceState.Restores ((InMemoryStore.replayed (t.writer.file ++ t.writer.unflushed)).getResource r) (t.settled r)

/-- With no create or delete about, requests queue changes of resources. -/
theorem Merging.changes (merging : t.Merging shards) : ∀ ev ∈ t.writer.unflushed, ev.isChange := by
  have others := merging.serving.commands.others merging.serving.queued fun record => by
    rw [merging.still] at record
    cases record
  rw [merging.serving.queued.front.queued merging.serving.running]
  intro ev inside
  obtain ⟨c, queued, recorded⟩ := List.mem_flatMap.mp inside
  exact (others c queued).2 ev recorded

/-- A compaction whose merge keeps what it carries leaves a file that restores every resource. -/
theorem Merging.compacted (merging : t.Merging shards) (merging' : t'.Merging shards) {snapshot : List Event}
    {behind : List WalCommand} (head : t.writer.queue = .compact snapshot :: behind)
    (keeps : Compaction.KeepsCarried snapshot (t.writer.recording.getD []))
    (file : t'.writer.file = Compaction.mergeRecorded snapshot (t.writer.recording.getD []))
    (queue : t'.writer.queue = behind) (settled : ∀ r, t'.settled r = t.settled r) : t'.Restored := by
  intro r
  obtain ⟨snapshots, rfl, copied, within⟩ := merging.compacts [] snapshot behind head
  have busy : t.compaction = .submitted := (merging.window.compacts _ (by rw [head]; exact List.mem_cons_self)).1
  have recorded : ∀ ev ∈ t.writer.recording.getD [], ev.isChange := by
    have entered : .compactBegin ∉ t.writer.queue := fun inside => by cases busy.symm.trans (merging.window.begins inside)
    cases recording : t.writer.recording with
    | none => exact List.forall_mem_nil _
    | some records =>
        exact merging.window.changes (by rw [busy]; exact fun same => by cases same) entered records recording
  have unflushed : t'.writer.unflushed = behind.flatMap WalCommand.records := by
    rw [merging'.serving.queued.front.queued merging'.serving.running, queue]
  have changes := merging'.changes
  rw [unflushed] at changes
  have distinct := copied.distinct
  rw [List.append_nil] at distinct
  have entry := copied.whole r
  rw [List.append_nil, ← settled_isSome] at entry
  rw [file, unflushed, settled]
  cases known : t.settled r with
  | none =>
      rw [known] at entry
      rw [Compaction.merged_absent (fun inside => by cases entry.mp inside) recorded changes]
      exact .none
  | some whole =>
      rw [known] at entry
      obtain ⟨copy, member, rfl⟩ := List.mem_map.mp (entry.mpr rfl)
      obtain ⟨rs, restores, read⟩ := Compaction.merged_copied distinct member recorded changes
      have copiedWithin := within copy member whole known
      rw [List.flatMap_nil, List.append_nil] at copiedWithin
      rw [read]
      refine .some (copiedWithin.merged (fun x => Compaction.mem_carried member) (fun x inside front w last fills => ?_) restores)
      obtain ⟨alone, change, there, adds⟩ := keeps copy.id x inside front w last fills
      refine ⟨alone, ResourceState.slot_isSome.mpr ?_⟩
      obtain ⟨i, added, rfl⟩ := Option.map_eq_some_iff.mp adds
      obtain ⟨record, there, own⟩ := List.mem_flatMap.mp there
      obtain ⟨step, routed⟩ := List.mem_filter.mp own
      obtain ⟨other, isCopy, inside, route⟩ := snapshotEvents_adds (List.mem_flatMap.mpr ⟨record, there, step⟩) added
      have same : other.id = copy.id := by
        rw [route] at routed
        simpa using routed
      rw [List.inj_on_of_nodup_map distinct isCopy member same] at inside
      exact List.mem_map_of_mem inside

theorem Merging.restored_took (merging : t.Merging shards) (restored : t.Restored) (took : t.Took shards a t')
    (stays : a.leavesTopology) (undisturbed : t.Undisturbed a) (new : t.SendsNew a) (kept : t.MergesKept a) :
    t'.Restored := by
  have merging' := merging.took took stays undisturbed new
  have settled := fun other => merging.settled_same took stays other
  have same : (∀ i, a ≠ .send i) → t'.writer.file ++ t'.writer.unflushed = t.writer.file ++ t.writer.unflushed →
      t'.Restored := by
    intro other file r
    rw [file, settled other]
    exact restored r
  have pushed : (∀ i, a ≠ .send i) → ∀ {command : WalCommand}, t'.writer = t.writer.push command → command.records = [] →
      t'.Restored := by
    intro other command writer empty
    apply same other
    rw [writer, merging.serving.queued.front.push_unflushed, empty, List.append_nil]
    rfl
  cases took with
  | @send i request held records phase =>
      intro r
      have changes := merging'.changes
      have more : ∀ ev ∈ records, ev.isChange := ((merging.serving.bound i).decided _ _ _ phase).1
      have sent : t.Took shards (.send i) _ := .send phase
      obtain ⟨settled, adds⟩ := merging.settled_send sent new r
      rw [settled, phase]
      have file : (t.writer.push (.write (.request i) records)).file ++ (t.writer.push (.write (.request i) records)).unflushed =
          t.writer.file ++ t.writer.unflushed ++ records := by
        rw [merging.serving.queued.front.push_unflushed, WalCommand.write_records, List.append_assoc]
        rfl
      rw [file, InMemoryStore.replayed_append, InMemoryStore.foldl_replayEvent_getResource _ _ (InMemoryStore.replayed_named _),
        foldl_stepOn_changes fun ev inside => .inl (more ev inside)]
      have before := restored r
      cases known : t.settled r with
      | none =>
          rw [known] at before
          rw [Outcome.rel_none before]
          exact .none
      | some whole =>
          rw [known] at before
          obtain ⟨rs, rebuilt, both⟩ := Outcome.rel_some before
          have new := adds whole known
          rw [phase] at new
          rw [rebuilt]
          exact .some (both.foldl (merging.based r whole known).nodup new)
  | flush taken =>
      cases undisturbed
      apply same fun i same => by cases same
      have running := merging.serving.running
      have whole := LogWriter.flush_whole taken merging.serving.attached
      rw [merging.serving.queued.front.queued running, merging'.serving.queued.front.queued merging'.serving.running, whole]
      simp only [LogWriter.answer]
      rw [List.append_assoc, ← List.flatMap_append, List.take_append_drop]
  | handle taken =>
      cases undisturbed
      have unflushed := merging.serving.queued.front.queued merging.serving.running
      have unflushed' := merging'.serving.queued.front.queued merging'.serving.running
      rcases LogWriter.handle_whole taken merging.serving.running with ⟨rest, head, whole⟩ | ⟨events, rest, head, whole⟩
      · apply same fun i same => by cases same
        rw [unflushed, unflushed', whole]
        simp [LogWriter.answer, head, WalCommand.records]
      · apply merging.compacted merging' head (kept.2 events rest head)
        · rw [whole]
        · rw [whole]
          simp [LogWriter.answer, head]
        · exact settled fun i same => by cases same
  | beginCompaction | submit => exact pushed (fun i same => by cases same) rfl rfl
  | create | delete | unlink | clear | sendCreate | sendDelete | finishCreate | finishDelete | abandon => cases stays
  | _ => exact same (fun i same => by cases same) rfl

/-! ### Runs -/

/-- What the steps have to keep to: no creates and deletes, ids that are new to their resource,
    and a merge that keeps what it carries. -/
def Kept (t : Tenant) (a : Action) : Prop := a.leavesTopology ∧ t.SendsNew a ∧ t.MergesKept a

theorem on_merging {e : Engine} (reachable : Engine.Reachable (fun _ _ => True) e) : (on e).Merging shards := by
  have hierarchy : _ ∧ _ ∧ (on e).Window shards ∧ _ := on_hierarchy reachable
  obtain ⟨serving, grown, window, _⟩ := hierarchy
  refine ⟨serving, grown, window, on_inOrder e, rfl, on_phased e, fun r whole known => ?_, fun _ _ _ phase => (by cases phase),
    fun ahead events behind queue => ?_⟩
  · rw [settled_free rfl] at known
    exact ⟨whole, (reachable.healthy.consistent.wellFormed r whole known).idsNodup, trivial, rfl⟩
  · simp [on] at queue

theorem Merging.undisturbed (merging : t.Merging shards) (took : t.Took shards a t') (kept : t.Kept a)
    (running : t'.writer.failed = false) : t.Undisturbed a := by
  cases took with
  | @flush n ok writer taken =>
      exact LogWriter.flush_running taken running
  | handle => exact kept.2.2.1
  | beginCompaction => exact merging.still
  | create | delete => cases kept.1
  | _ => trivial

theorem reached_merging {e : Engine} (reachable : Engine.Reachable (fun _ _ => True) e)
    (reached : Reaches (step shards) Kept (on e) t) : t.writer.failed = false → t.Merging shards :=
  reached.invariant (I := fun t => t.writer.failed = false → t.Merging shards) (fun _ => on_merging reachable)
    fun _ _ _ merging kept taken running =>
      have took := Tenant.took taken
      have before := merging (took.running running)
      before.took took kept.1 (before.undisturbed took kept running) kept.2.1

/-- Once everything queued is flushed and applied, the file alone restores the table. -/
theorem Merging.restored_quiet (merging : t.Merging shards) (restored : t.Restored) (flushed : t.writer.queue = [])
    (applied : ∀ i, (t.tasks i).pending = []) (order : List Ulid) (r : Ulid) :
    Option.Rel ResourceState.Restores ((InMemoryStore.rebuilt t.writer.file order).getResource r)
      (t.memory.store.getResource r) := by
  have settled : ∀ r, t.settled r = t.memory.store.getResource r := by
    intro r
    have nothing : t.locked r = [] := by
      unfold locked changesFor
      cases t.lockedBy (t.memory.current r) with
      | none => rfl
      | some i => simp [applied]
    rw [Tenant.settled, nothing]
    exact Option.map_id' ..
  have table : ∀ r, Option.Rel ResourceState.Restores ((InMemoryStore.replayed t.writer.file).getResource r)
      (t.memory.store.getResource r) := by
    intro r
    have here := restored r
    rwa [merging.serving.queued.front.queued merging.serving.running, flushed, List.flatMap_nil, List.append_nil,
      settled] at here
  have forest := merging.grown.planted.wellFormedForest
  have whole : InMemoryStore.rebuilt t.writer.file order = InMemoryStore.replayed t.writer.file := by
    apply InMemoryStore.foldl_detachOrphan
    intro c rs p found under
    have child := table c
    cases live : t.memory.store.getResource c with
    | none =>
        rw [live] at child
        cases found.symm.trans (Outcome.rel_none child)
    | some there =>
        rw [live] at child
        obtain ⟨rs', found', restores⟩ := Outcome.rel_some child
        cases found.symm.trans found'
        have above := forest.parentExists c there p live (restores.parentId ▸ under)
        obtain ⟨parent, present⟩ := Option.isSome_iff_exists.mp above
        have rebuilt := table p
        rw [present] at rebuilt
        obtain ⟨_, same, _⟩ := Outcome.rel_some rebuilt
        rw [same]
        rfl
  rw [whole]
  exact table r

/-- A compaction that keeps what it carries leaves a file that, with what is appended to it,
    restores every resource as memory has it once all that is queued is applied. -/
theorem compaction_restores {e : Engine} (reachable : Engine.Reachable (fun _ _ => True) e)
    (before : Reaches (step shards) Kept (on e) t) {snapshot : List Event} {behind : List WalCommand}
    (head : t.writer.queue = .compact snapshot :: behind) (kept : t.Kept (.handle none))
    (compacted : t.step shards (.handle none) = some t') {s : Tenant} (after : Reaches (step shards) Kept t' s)
    (running : s.writer.failed = false) :
    s.Restored ∧ (s.writer.queue = [] → (∀ i, (s.tasks i).pending = []) → ∀ order r,
      Option.Rel ResourceState.Restores ((InMemoryStore.rebuilt s.writer.file order).getResource r)
        (s.memory.store.getResource r)) := by
  have first : t'.writer.failed = false → t'.Merging shards ∧ t'.Restored := by
    intro running'
    have took := Tenant.took compacted
    have merging := reached_merging reachable before (took.running running')
    have merging' := merging.took took kept.1 rfl kept.2.1
    refine ⟨merging', ?_⟩
    obtain ⟨writer, handled, rfl⟩ := Option.map_eq_some_iff.mp compacted
    rcases LogWriter.handle_whole handled merging.serving.running with ⟨_, began, _⟩ | ⟨events, rest, submitted, whole⟩
    · cases head.symm.trans began
    · apply merging.compacted merging' submitted (kept.2.2.2 events rest submitted)
      · rw [whole]
      · rw [whole]
        simp [LogWriter.answer, submitted]
      · exact merging.settled_same took kept.1 fun i same => by cases same
  have last : s.writer.failed = false → s.Merging shards ∧ s.Restored :=
    after.invariant (I := fun s => s.writer.failed = false → s.Merging shards ∧ s.Restored) first
      fun _ _ _ both kept taken running =>
        have took := Tenant.took taken
        have merging := (both (took.running running)).1
        have restored := (both (took.running running)).2
        have undisturbed := merging.undisturbed took kept running
        ⟨merging.took took kept.1 undisturbed kept.2.1, merging.restored_took restored took kept.1 undisturbed kept.2.1 kept.2.2⟩
  obtain ⟨merging, restored⟩ := last running
  exact ⟨restored, merging.restored_quiet restored⟩

/-! ## A booking that is cancelled and made again while the copies are taken -/

/-- A booking of the room, until it is flushed and applied. -/
def booked (i : TaskId) : List Action :=
  reaching i (.confirmBooking 9 1 ⟨⟨10, 20⟩, slot_valid⟩ none) ++ [.claim i] ++ placed i ++ [.flush 1 true]

def cancelled (i : TaskId) : List Action :=
  reaching i (.cancelBooking 9) ++ [.check i 0 noRules, .send i, .flush 1 true, .apply i, .release i]

/-- A compaction up to its look at the room. -/
def copying : List Action := [.beginCompaction, .handle none, .enterWindow, .list [1], .allListed, .lookSnapshot]

/-- Three requests beside a compaction, all of them acknowledged. -/
def rebooking : List Action := booked 0 ++ copying ++ cancelled 1 ++ booked 2 ++
  [.snapshot, .submit, .handle none, .finishCompaction, .answer 0, .answer 1, .answer 2]

def rebooked : Tenant := (Machine.run (step oneShard) rebooking (on bareRoom)).getD (on bareRoom)

theorem rebooked_ran : Machine.run (step oneShard) rebooking (on bareRoom) = some rebooked := by
  have possible : (Machine.run (step oneShard) rebooking (on bareRoom)).isSome := by decide +kernel
  obtain ⟨t, ran⟩ := Option.isSome_iff_exists.mp possible
  rw [rebooked, ran]
  rfl

/-- The booking stands in memory, and the compacted file adds it once and then removes it. -/
theorem rebooked_rooms : rebooked.writer.failed = false ∧ rebooked.writer.queue = [] ∧
    (rebooked.memory.store.getResource 1).map (·.intervals.map (·.id)) = some [9] ∧
    ((InMemoryStore.rebuilt rebooked.writer.file [1]).getResource 1).map (·.intervals.map (·.id)) = some [] := by
  decide +kernel

theorem rebooked_settled : ∀ i, (rebooked.tasks i).pending = [] := by
  have three : (rebooked.tasks 0).pending = [] ∧ (rebooked.tasks 1).pending = [] ∧ (rebooked.tasks 2).pending = [] := by
    decide +kernel
  have others : rebooking.all (fun a => a.task.all (· < 3)) = true := rfl
  intro i
  match i with
  | 0 => exact three.1
  | 1 => exact three.2.1
  | 2 => exact three.2.2
  | i + 3 =>
      have idle : rebooked.tasks (i + 3) = .idle := by
        apply run_tasks_other _ rebooked_ran
        intro a inside own
        have early := List.all_eq_true.mp others a inside
        rw [own] at early
        simp at early
      rw [idle]
      rfl

/-- The acknowledged booking is not in the file. -/
theorem rebooked_lost : Engine.Reachable (fun _ _ => True) bareRoom ∧
    Reaches (step oneShard) (fun _ a => a.leavesTopology) (on bareRoom) rebooked ∧
    rebooked.writer.failed = false ∧ rebooked.writer.queue = [] ∧ (∀ i, (rebooked.tasks i).pending = []) ∧
    ¬ ∀ order r, Option.Rel ResourceState.Restores
      ((InMemoryStore.rebuilt rebooked.writer.file order).getResource r) (rebooked.memory.store.getResource r) := by
  obtain ⟨running, flushed, memory, file⟩ := rebooked_rooms
  refine ⟨bareRoom_reachable, Machine.reaches_of_run ?_ rebooked_ran, running, flushed, rebooked_settled, fun restores => ?_⟩
  · have kinds : rebooking.all Action.leavesTopology = true := rfl
    exact fun a inside _ => List.all_eq_true.mp kinds a inside
  · obtain ⟨live, present, ids⟩ := Option.map_eq_some_iff.mp memory
    have both := restores [1] 1
    rw [present] at both
    obtain ⟨rs, rebuilt, same⟩ := Outcome.rel_some both
    rw [rebuilt, Option.map_some, Option.some.injEq] at file
    have length := (same.intervals.map (·.id)).length_eq
    rw [file, ids] at length
    cases length

/-- A booking request behind the copy of its room, up to where it is queued, and from there on. -/
def copiedBooking : List Action := [.enterWindow, .list [1], .allListed, .lookSnapshot, .snapshot] ++
  reaching 0 (.confirmBooking 9 1 ⟨⟨10, 20⟩, slot_valid⟩ none) ++ [.claim 0, .check 0 0 noRules]

def bookedBehind : List Action := [.apply 0, .release 0, .flush 1 true, .submit]

theorem copiedBooking_new {rs : ResourceState} (empty : rs.intervals.map (·.id) = []) :
    ResourceState.AddsNew [.bookingConfirmed 9 1 ⟨10, 20⟩ none] rs :=
  ⟨fun i added => .inl (by rw [empty]; exact List.not_mem_nil), trivial⟩

theorem copiedBooking_keeps : Compaction.KeepsCarried [.resourceCreated 1 none none 1 none]
    [.bookingConfirmed 9 1 ⟨10, 20⟩ none] := by
  intro r x inside front w last
  cases List.mem_singleton.mp inside
  have nothing : writes 1 ([Event.bookingConfirmed 9 1 ⟨10, 20⟩ none].flatMap (Event.changesOn r)) = [] := by
    by_cases here : r = 1
    · subst here
      rfl
    · simp [Event.changesOn, Event.perResource, Event.resourceId?, Ne.symm here, writes]
  rw [nothing] at last
  simp at last

/-- A booking made behind the copy of its room is in the compacted file. -/
theorem copied_restores : ∃ s : Tenant, s.writer.queue = [] ∧
    (s.memory.store.getResource 1).map (·.intervals.map (·.id)) = some [9] ∧ s.Restored ∧
    (s.writer.queue = [] → (∀ i, (s.tasks i).pending = []) → ∀ order r,
      Option.Rel ResourceState.Restores ((InMemoryStore.rebuilt s.writer.file order).getResource r)
        (s.memory.store.getResource r)) := by
  have possible : (((on bareRoom).step oneShard .beginCompaction).bind fun began =>
      (began.step oneShard (.handle none)).bind fun entered =>
      (Machine.run (step oneShard) copiedBooking entered).bind fun t =>
      (t.step oneShard (.send 0)).bind fun sent =>
      (Machine.run (step oneShard) bookedBehind sent).bind fun ready =>
      (ready.step oneShard (.handle none)).map fun s => (
        began.writer.queue = [.compactBegin] ∧ (t.tasks 0).records = [.bookingConfirmed 9 1 ⟨10, 20⟩ none] ∧
        (t.memory.store.getResource 1).map (·.intervals.map (·.id)) = some [] ∧
        ready.writer.queue = [.compact [.resourceCreated 1 none none 1 none]] ∧
        ready.writer.recording = some [.bookingConfirmed 9 1 ⟨10, 20⟩ none] ∧ s.writer.failed = false ∧
        s.writer.queue = [] ∧ (s.memory.store.getResource 1).map (·.intervals.map (·.id)) = some [9] : Bool)) =
      some true := by
    decide +kernel
  obtain ⟨began, begin', possible⟩ := Option.bind_eq_some_iff.mp possible
  obtain ⟨entered, handled, possible⟩ := Option.bind_eq_some_iff.mp possible
  obtain ⟨t, decided, possible⟩ := Option.bind_eq_some_iff.mp possible
  obtain ⟨sent, queued, possible⟩ := Option.bind_eq_some_iff.mp possible
  obtain ⟨ready, applied, possible⟩ := Option.bind_eq_some_iff.mp possible
  obtain ⟨s, compacted, state⟩ := Option.map_eq_some_iff.mp possible
  obtain ⟨beginning, records, empty, merging, recording, running, flushed, ids⟩ := of_decide_eq_true state
  have plain : ∀ actions : List Action, actions.all (fun a => a.leavesTopology && match a with
      | .send _ | .handle _ => false
      | _ => true) = true → ∀ a ∈ actions, ∀ s, Kept s a := by
    intro actions kinds a inside s
    have kind := List.all_eq_true.mp kinds a inside
    cases a <;> first | exact ⟨rfl, trivial, trivial⟩ | cases kind
  have new : t.Kept (.send 0) := by
    refine ⟨rfl, fun r rs present => ?_, trivial⟩
    rw [records]
    by_cases here : r = 1
    · subst here
      rw [present] at empty
      exact copiedBooking_new (Option.some.inj empty)
    · have nothing : [Event.bookingConfirmed 9 1 ⟨10, 20⟩ none].flatMap (Event.changesOn r) = [] := by
        simp [Event.changesOn, Event.perResource, Event.resourceId?, Ne.symm here]
      rw [nothing]
      trivial
  have keeps : ready.Kept (.handle none) := by
    refine ⟨rfl, trivial, rfl, fun snapshot behind head => ?_⟩
    rw [merging] at head
    cases head
    rw [recording]
    exact copiedBooking_keeps
  have first : began.Kept (.handle none) := by
    refine ⟨rfl, trivial, rfl, fun snapshot behind head => ?_⟩
    rw [beginning] at head
    cases head
  have toBegan : Reaches (step oneShard) Kept (on bareRoom) began := .next .beginCompaction .start ⟨rfl, trivial, trivial⟩ begin'
  have toT := (toBegan.next (.handle none) first handled).run (plain copiedBooking rfl) decided
  have toReady := (toT.next (.send 0) new queued).run (plain bookedBehind rfl) applied
  exact ⟨s, flushed, ids, compaction_restores bareRoom_reachable toReady merging keeps compacted .start running⟩

end Tenant

end Deltat
