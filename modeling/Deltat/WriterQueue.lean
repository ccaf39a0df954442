import Deltat.DeletedResources

/-! # The queue of the log writer

The writer takes commands off the front of its queue, flushes all of a batch or nothing, and
answers whoever sent them. A sender has one command queued at a time and waits for its answer.
-/

namespace Deltat

open Lib Machine

/-! ## The writer -/

namespace LogWriter

variable {w w' : LogWriter}

/-- The records queued so far that are not flushed, in order: still queued or, behind a failed
    flush, given up. -/
def unflushed (w : LogWriter) : List Event := w.handed.drop w.flushed.length

/-- The queue is flushed from the front. -/
structure FromFront (w : LogWriter) : Prop where
  begun : w.flushed <+: w.handed
  queued : w.failed = false → w.unflushed = w.queue.flatMap WalCommand.records

theorem FromFront.handed (front : w.FromFront) : w.handed = w.flushed ++ w.unflushed := by
  obtain ⟨rest, whole⟩ := front.begun
  rw [unflushed, ← whole, List.drop_left]

theorem FromFront.push_unflushed (front : w.FromFront) (command : WalCommand) :
    (w.push command).unflushed = w.unflushed ++ command.records := by
  have within : w.flushed.length ≤ w.handed.length := front.begun.length_le
  exact List.drop_append_of_le_length within

theorem FromFront.push (front : w.FromFront) (command : WalCommand) : (w.push command).FromFront where
  begun := front.begun.trans (List.prefix_append _ _)
  queued running := by
    rw [front.push_unflushed, front.queued running]
    simp [LogWriter.push]

theorem push_outcomes {command : WalCommand} {s : Sender} (other : s ≠ command.sender) :
    (w.push command).outcomes s = w.outcomes s := Function.update_of_ne other ..

theorem flush_takes {n : Nat} {ok : Bool} (taken : w.flush n ok = some w') : w'.queue = w.queue.drop n ∧
    w'.outcomes = (w.answer n ok).outcomes ∧
    w'.flushed = w.flushed ++ if ok then (w.queue.take n).flatMap WalCommand.records else [] := by
  unfold flush at taken
  simp only at taken
  split at taken
  · split at taken <;> cases taken
    · exact ⟨rfl, rfl, rfl⟩
    · exact ⟨rfl, rfl, (List.append_nil _).symm⟩
  · cases taken

theorem handle_takes {fault : Option CompactFault} (taken : w.handle fault = some w') :
    (w.queue.take 1).map WalCommand.sender = [.compaction] ∧ w'.queue = w.queue.drop 1 ∧
      (∃ ok, w'.outcomes = (w.answer 1 ok).outcomes) ∧ w'.flushed = w.flushed := by
  unfold handle at taken
  split at taken
  · next head =>
      cases taken
      exact ⟨by rw [head]; rfl, rfl, ⟨_, rfl⟩, rfl⟩
  · next head =>
      simp only at taken
      refine ⟨by rw [head]; rfl, ?_⟩
      split at taken
      · cases taken
        exact ⟨rfl, ⟨_, rfl⟩, rfl⟩
      · split at taken
        · cases taken
          exact ⟨rfl, ⟨_, rfl⟩, rfl⟩
        · split at taken <;> cases taken <;> exact ⟨rfl, ⟨_, rfl⟩, rfl⟩
  · cases taken

/-- A step of the writer answers the front of its queue, and flushes all of it or nothing. -/
inductive Worked (w w' : LogWriter) : Prop where
  | nothing (n : Nat) (ok : Bool) (queue : w'.queue = w.queue.drop n) (outcomes : w'.outcomes = (w.answer n ok).outcomes)
      (flushed : w'.flushed = w.flushed) (unflushed : w'.unflushed = w.unflushed)
      (running : w'.failed = false → w.failed = false)
      (others : ok = true → ∀ s ∈ (w.queue.take n).map WalCommand.sender, s = .compaction)
  | batch (n : Nat) (running : w.failed = false) (still : w'.failed = false) (queue : w'.queue = w.queue.drop n)
      (outcomes : w'.outcomes = (w.answer n true).outcomes)
      (flushed : w'.flushed = w.flushed ++ (w.queue.take n).flatMap WalCommand.records)
      (unflushed : w.unflushed = (w.queue.take n).flatMap WalCommand.records ++ w'.unflushed)

theorem FromFront.took (front : w.FromFront) (took : w.Took w') : w'.FromFront ∧ w.Worked w' := by
  cases took with
  | flushed n _ running =>
      have whole : w.handed = w.flushed ++ (w.queue.take n).flatMap WalCommand.records ++
          (w.queue.drop n).flatMap WalCommand.records := by
        rw [List.append_assoc, ← List.flatMap_append, List.take_append_drop, ← front.queued running, ← front.handed]
      have rest : w.handed.drop (w.flushed ++ (w.queue.take n).flatMap WalCommand.records).length =
          (w.queue.drop n).flatMap WalCommand.records := by
        rw [whole, List.drop_left]
      refine ⟨⟨⟨_, whole.symm⟩, fun _ => rest⟩, .batch n running running rfl rfl rfl ?_⟩
      rw [front.queued running]
      simp only [unflushed, answer]
      rw [rest, ← List.flatMap_append, List.take_append_drop]
  | refused n =>
      exact ⟨⟨front.begun, fun running => by cases running⟩, .nothing n false rfl rfl rfl rfl (fun running => by cases running)
        fun same => by cases same⟩
  | began head | compacted head =>
      refine ⟨⟨front.begun, fun running => ?_⟩, .nothing 1 true rfl rfl rfl rfl id fun _ s inside => ?_⟩
      · have before := front.queued running
        simpa [unflushed, answer, head, WalCommand.records] using before
      · simpa [head, WalCommand.sender] using inside
  | stopped head | swapped head | kept head =>
      refine ⟨⟨front.begun, fun running => ?_⟩, .nothing 1 false rfl rfl rfl rfl id fun same => by cases same⟩
      have before := front.queued running
      simpa [unflushed, answer, head, WalCommand.records] using before

end LogWriter

/-! ## The senders -/

/-- Whether a request has a command queued or an answer to read. -/
def Task.queued : Task → Bool
  | .sent .. | .waiting _ => true
  | _ => false

/-- The same for a create or a delete. -/
def Topology.queued : Topology → Bool
  | .creating _ _ _ _ _ sent => sent
  | .deleting _ .sent => true
  | _ => false

/-- The record of a create or a delete that is queued. -/
def Topology.record : Topology → Option Event
  | .creating id parentId name capacity bufferAfter true => some (.resourceCreated id parentId name capacity bufferAfter)
  | .deleting id .sent => some (.resourceDeleted id)
  | _ => none

/-- The same for a compaction. -/
def Compacting.queued : Compacting → Bool
  | .beginning | .submitted => true
  | _ => false

@[simp] theorem WalCommand.write_sender (sender : Sender) (records : List Event) :
    (write sender records).sender = sender := by
  unfold write
  split <;> rfl

theorem LogWriter.answer_outcomes (w : LogWriter) (n : Nat) (ok : Bool) (s : Sender) :
    (w.answer n ok).outcomes s =
      if s ∈ (w.queue.take n).map WalCommand.sender then some ok else w.outcomes s := rfl

/-- Whoever was answered by a step of the writer had a command at the front of its queue. -/
theorem LogWriter.Took.answers {w w' : LogWriter} (took : w.Took w') : ∃ n ok,
    w'.queue = w.queue.drop n ∧ w'.outcomes = (w.answer n ok).outcomes ∧
      (ok = false → w'.failed = true ∨ ∀ s ∈ (w.queue.take n).map WalCommand.sender, s = .compaction) := by
  cases took with
  | flushed n => exact ⟨n, true, rfl, rfl, fun same => by cases same⟩
  | refused n => exact ⟨n, false, rfl, rfl, fun _ => .inl rfl⟩
  | began head | compacted head => exact ⟨1, true, rfl, rfl, fun same => by cases same⟩
  | stopped head | swapped head | kept head =>
      refine ⟨1, false, rfl, rfl, fun _ => .inr fun s inside => ?_⟩
      simpa [head, WalCommand.sender] using inside

theorem LogWriter.Took.failed {w w' : LogWriter} (took : w.Took w') (before : w.failed = true) : w'.failed = true := by
  cases took <;> first | exact before | rfl

namespace Tenant

variable {shards : Shards} {t t' : Tenant} {a : Action}

/-- Whether a sender has a command queued or an answer to read. -/
def awaits (t : Tenant) : Sender → Bool
  | .request i => (t.tasks i).queued
  | .topology => t.topology.queued
  | .compaction => t.compaction.queued

/-- A sender whose command is not answered waits on. -/
theorem Took.awaits (took : t.Took shards a t') {s : Sender} (waits : t.awaits s = true)
    (unanswered : t.writer.outcomes s = none) : t'.awaits s = true := by
  cases s with
  | request j =>
      by_cases own : a.task = some j
      · simp only [Tenant.awaits] at waits ⊢
        cases took with
        | start phase | lookUp phase | lock phase | allLocked phase | claim phase | check phase | send phase =>
            cases own
            simp [phase, Task.queued] at waits
        | apply => cases own; simp [Task.queued]
        | release => cases own; simp [Task.queued]
        | fail _ _ outcome | answer _ outcome => cases own; cases unanswered.symm.trans outcome
        | refuse before =>
            cases own
            rcases before with ⟨_, _, _, _, phase⟩ | ⟨_, _, _, _, phase⟩ <;>
              rw [phase] at waits <;> cases waits
        | _ => cases own
      · simpa only [Tenant.awaits, took.tasks_other own] using waits
  | topology =>
      simp only [Tenant.awaits] at waits ⊢
      cases took with
      | finishCreate _ outcome | finishDelete _ outcome => cases unanswered.symm.trans outcome
      | abandon failing =>
          rcases failing with ⟨refused, _⟩ | ⟨_, id, phase⟩
          · cases unanswered.symm.trans refused
          · rw [phase] at waits
            cases waits
      | create phase | delete phase | unlink phase | clear phase => rw [phase] at waits; cases waits
      | sendCreate | sendDelete => rfl
      | _ => exact waits
  | compaction =>
      simp only [Tenant.awaits] at waits ⊢
      cases took with
      | beginCompaction | submit => rfl
      | enterWindow _ outcome | finishCompaction _ outcome => cases unanswered.symm.trans outcome
      | list phase | allListed phase | lookSnapshot phase | snapshot phase => rw [phase] at waits; cases waits
      | _ => exact waits

/-- Who queues a command has no other one there. -/
theorem Took.pushes (took : t.Took shards a t') : t'.writer = t.writer ∨
    (∃ command, t'.writer = t.writer.push command ∧ t.awaits command.sender = false ∧
      t'.awaits command.sender = true) ∨ t.writer.Took t'.writer := by
  cases took with
  | @send i _ _ records phase =>
      refine .inr (.inl ⟨_, rfl, ?_, ?_⟩)
      · simp [Tenant.awaits, phase, Task.queued]
      · simp [Tenant.awaits, Task.queued]
  | sendCreate phase | sendDelete phase =>
      refine .inr (.inl ⟨_, rfl, ?_, rfl⟩)
      simp [Tenant.awaits, WalCommand.sender, phase, Topology.queued]
  | beginCompaction phase | submit phase =>
      refine .inr (.inl ⟨_, rfl, ?_, rfl⟩)
      simp [Tenant.awaits, WalCommand.sender, phase, Compacting.queued]
  | flush _ took | handle _ took => exact .inr (.inr took)
  | _ => exact .inl rfl

/-- Every sender has at most one command queued, and waits for its answer. -/
structure Queued (t : Tenant) : Prop where
  front : t.writer.FromFront
  senders : (t.writer.queue.map WalCommand.sender).Nodup
  waiting : ∀ c ∈ t.writer.queue, t.awaits c.sender = true ∧ t.writer.outcomes c.sender = none
  refused : ∀ s, s ≠ .compaction → t.writer.outcomes s = some false → t.writer.failed = true

theorem on_queued (e : Engine) : (on e).Queued where
  front := ⟨List.prefix_rfl, fun _ => rfl⟩
  senders := .nil
  waiting _ inside := (List.not_mem_nil inside).elim
  refused _ _ refused := by cases refused

/-- Senders behind the front of the queue are not at its front. -/
theorem Queued.behind (queued : t.Queued) {n : Nat} {c : WalCommand} (inside : c ∈ t.writer.queue.drop n) :
    c.sender ∉ (t.writer.queue.take n).map WalCommand.sender := by
  have apart := queued.senders
  rw [← List.take_append_drop n t.writer.queue, List.map_append] at apart
  exact fun first => (List.nodup_append.mp apart).2.2 _ first _ (List.mem_map_of_mem inside) rfl

theorem Queued.took (queued : t.Queued) (took : t.Took shards a t') : t'.Queued := by
  have waits : ∀ c ∈ t.writer.queue, t'.awaits c.sender = true :=
    fun c inside => took.awaits (queued.waiting c inside).1 (queued.waiting c inside).2
  rcases took.pushes with same | ⟨command, pushed, before, after⟩ | worked
  · refine ⟨?_, ?_, fun c inside => ?_, ?_⟩ <;> rw [same] at *
    · exact queued.front
    · exact queued.senders
    · exact ⟨waits c inside, (queued.waiting c inside).2⟩
    · exact queued.refused
  · have apart : ∀ c ∈ t.writer.queue, c.sender ≠ command.sender := by
      intro c inside same
      have waiting := (queued.waiting c inside).1
      rw [same, before] at waiting
      cases waiting
    refine ⟨?_, ?_, fun c inside => ?_, fun s other refused => ?_⟩ <;> rw [pushed] at *
    · exact queued.front.push command
    · simp only [LogWriter.push, List.map_append, List.map_cons, List.map_nil]
      apply queued.senders.append (List.nodup_singleton _)
      rw [List.disjoint_singleton]
      intro inside
      obtain ⟨c, there, same⟩ := List.mem_map.mp inside
      exact apart c there same
    · rcases List.mem_append.mp inside with there | now
      · exact ⟨waits c there, (Function.update_of_ne (apart c there) ..).trans (queued.waiting c there).2⟩
      · cases List.mem_singleton.mp now
        exact ⟨after, Function.update_self ..⟩
    · apply queued.refused s other
      simp only [LogWriter.push, Function.update_apply] at refused
      split at refused
      · cases refused
      · exact refused
  · obtain ⟨n, ok, queue, outcomes, blames⟩ := worked.answers
    refine ⟨(queued.front.took worked).1, ?_, fun c inside => ?_, fun s other refused => ?_⟩
    · rw [queue]
      exact queued.senders.sublist ((List.drop_sublist n _).map _)
    · rw [queue] at inside
      refine ⟨waits c (List.mem_of_mem_drop inside), ?_⟩
      rw [outcomes, LogWriter.answer_outcomes, if_neg (queued.behind inside)]
      exact (queued.waiting c (List.mem_of_mem_drop inside)).2
    · rw [outcomes, LogWriter.answer_outcomes] at refused
      split at refused
      · next first =>
          cases refused
          exact (blames rfl).resolve_right fun only => other (only s first)
      · exact worked.failed (queued.refused s other refused)

/-! ## The commands -/

/-- Requests change resources that they have locked. -/
theorem Took.bound (took : t.Took shards a t') (bound : ∀ i, (t.tasks i).Bound fun _ => True) (j : TaskId) :
    (t'.tasks j).Bound fun _ => True := by
  by_cases own : a.task = some j
  · cases took with
    | start | lookUp | lock | allLocked | claim | release | fail | answer | refuse =>
        cases own
        exact .plain (by simp) (by simp [Task.pending])
    | @check i _ _ request targets held _ records phase _ admitted =>
        cases own
        rw [setTask_self]
        exact ⟨fun _ _ _ same => by cases same; exact admitted_bound admitted, fun p inside => (List.not_mem_nil inside).elim⟩
    | @send i request held records phase =>
        cases own
        simp only [setTask_self]
        refine ⟨fun _ _ _ same => (by cases same), fun p inside => ?_⟩
        obtain ⟨inHeld, _, routed⟩ := mem_pendingOn.mp inside
        exact ⟨routed, inHeld, trivial⟩
    | apply phase =>
        cases own
        simp only [setTask_self]
        have before := (phase ▸ bound j).pending
        exact ⟨fun _ _ _ same => (by cases same), fun p inside => before p (List.mem_cons_of_mem _ inside)⟩
    | _ => cases own
  · rw [took.tasks_other own]
    exact bound j

/-- Requests and compactions queue changes, and the record of a create or a delete is queued
    while that one is under way. -/
def Commands (t : Tenant) : Prop := ∀ c ∈ t.writer.queue,
  (c.sender ≠ .topology ∧ ∀ ev ∈ c.records, ev.isChange) ∨
    ∃ ev, t.topology.record = some ev ∧ c = .append .topology ev

/-- Where nothing of a create or a delete is unanswered, nothing of it is queued. -/
theorem Commands.others (commands : t.Commands) (queued : t.Queued)
    (answered : t.topology.record.isSome → t.writer.outcomes .topology ≠ none) :
    ∀ c ∈ t.writer.queue, c.sender ≠ .topology ∧ ∀ ev ∈ c.records, ev.isChange := by
  intro c inside
  apply (commands c inside).resolve_right
  rintro ⟨ev, recorded, rfl⟩
  exact answered (by rw [recorded]; rfl) (queued.waiting _ inside).2

theorem Commands.took (commands : t.Commands) (queued : t.Queued) (bound : ∀ i, (t.tasks i).Bound fun _ => True)
    (took : t.Took shards a t') : t'.Commands := by
  have idle : t.topology.record = none → ∀ c ∈ t.writer.queue, c.sender ≠ .topology ∧ ∀ ev ∈ c.records, ev.isChange :=
    fun none => commands.others queued fun some => by rw [none] at some; cases some
  have answered : ∀ {ok}, t.writer.outcomes .topology = some ok →
      ∀ c ∈ t.writer.queue, c.sender ≠ .topology ∧ ∀ ev ∈ c.records, ev.isChange :=
    fun outcome => commands.others queued fun _ none => by cases none.symm.trans outcome
  have pushed : ∀ {command : WalCommand} {q : List WalCommand}, q = t.writer.queue ++ [command] →
      command.sender ≠ .topology → (∀ ev ∈ command.records, ev.isChange) → ∀ c ∈ q,
        (c.sender ≠ .topology ∧ ∀ ev ∈ c.records, ev.isChange) ∨
          ∃ ev, t.topology.record = some ev ∧ c = .append .topology ev := by
    intro command q same sender changes c inside
    rw [same] at inside
    rcases List.mem_append.mp inside with there | now
    · exact commands c there
    · cases List.mem_singleton.mp now
      exact .inl ⟨sender, changes⟩
  have sent : t.topology.record = none → ∀ {ev : Event} {topology : Topology}, topology.record = some ev →
      ∀ c ∈ t.writer.queue ++ [.append .topology ev],
        (c.sender ≠ .topology ∧ ∀ ev ∈ c.records, ev.isChange) ∨
          ∃ ev, topology.record = some ev ∧ c = .append .topology ev := by
    intro none ev topology recorded c inside
    rcases List.mem_append.mp inside with there | now
    · exact .inl (idle none c there)
    · cases List.mem_singleton.mp now
      exact .inr ⟨ev, recorded, rfl⟩
  cases took with
  | @send i request held records phase =>
      apply pushed rfl
      · rw [WalCommand.write_sender]
        exact fun same => by cases same
      · rw [WalCommand.write_records]
        exact ((bound i).decided _ _ _ phase).1
  | beginCompaction | submit => exact pushed rfl (fun same => by cases same) (List.forall_mem_nil _)
  | sendCreate phase | sendDelete phase => exact sent (by rw [phase]; rfl) rfl
  | create phase | delete phase | unlink phase | clear phase =>
      exact fun c inside => .inl (idle (by rw [phase]; rfl) c inside)
  | finishCreate _ outcome | finishDelete _ outcome => exact fun c inside => .inl (answered outcome c inside)
  | abandon failing =>
      rcases failing with ⟨refused, _⟩ | ⟨_, id, phase⟩
      · exact fun c inside => .inl (answered refused c inside)
      · exact fun c inside => .inl (idle (by rw [phase]; rfl) c inside)
  | flush _ worked | handle _ worked =>
      obtain ⟨n, _, queue, _⟩ := worked.answers
      intro c inside
      simp only [queue] at inside
      exact commands c (List.mem_of_mem_drop inside)
  | _ => exact commands

end Tenant

end Deltat
