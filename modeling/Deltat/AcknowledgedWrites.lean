import Deltat.EarlyReads

/-! # What the answer to a request says of the log

The records of a request are flushed together, right behind everything that was queued before
them, or none of them ever is. Its answer says which, whoever else writes meanwhile.
-/

namespace Deltat

open Lib Machine

/-! ## A command and the flushed records -/

namespace LogWriter

variable {w w' : LogWriter} {sender : Sender} {ahead records : List Event}

/-- Where the command of a sender is: behind what was queued ahead of it, flushed or given up. -/
inductive Stands (w : LogWriter) (sender : Sender) (ahead records : List Event) : Prop
  | queued {before behind : List WalCommand} (queue : w.queue = before ++ .write sender records :: behind)
      (unanswered : w.outcomes sender = none) (begun : w.flushed <+: ahead)
      (next : w.failed = false → w.flushed ++ before.flatMap WalCommand.records = ahead)
  | durable (acked : w.outcomes sender = some true) (flushed : ahead ++ records <+: w.flushed)
  | lost (refused : w.outcomes sender = some false) (stopped : w.failed = true) (begun : w.flushed <+: ahead)

theorem Stands.whole (stands : w.Stands sender ahead records) :
    ahead ++ records <+: w.flushed ∨ w.flushed <+: ahead := by
  cases stands with
  | queued _ _ begun | lost _ _ begun => exact .inr begun
  | durable _ flushed => exact .inl flushed

/-- A command that is queued now stands behind everything that is not flushed yet. -/
theorem FromFront.stands (front : w.FromFront) : (w.push (.write sender records)).Stands sender w.handed records := by
  have unanswered : (w.push (.write sender records)).outcomes sender = none := by
    simp [LogWriter.push]
  have last : (w.push (.write sender records)).queue = w.queue ++ .write sender records :: [] := rfl
  apply Stands.queued last unanswered front.begun
  intro running
  have rest := front.queued running
  have whole := front.handed
  rw [rest] at whole
  exact whole.symm

theorem Stands.push (stands : w.Stands sender ahead records) {command : WalCommand} (other : sender ≠ command.sender) :
    (w.push command).Stands sender ahead records := by
  have same := push_outcomes (w := w) other
  cases stands with
  | @queued before behind queue unanswered begun next =>
      have longer : (w.push command).queue = before ++ .write sender records :: (behind ++ [command]) := by
        simp [LogWriter.push, queue]
      exact .queued longer (same.trans unanswered) begun next
  | durable acked flushed => exact .durable (same.trans acked) flushed
  | lost refused stopped begun => exact .lost (same.trans refused) stopped begun

theorem Took.freezes (took : w.Took w') (stopped : w.failed = true) : w'.flushed = w.flushed := by
  cases took with
  | flushed _ _ running => cases stopped.symm.trans running
  | _ => rfl

/-- The front of the queue ends before a command, or has it. -/
theorem take_command {queue before behind : List WalCommand} {command : WalCommand}
    (whole : queue = before ++ command :: behind) (n : Nat) :
    (∃ rest, queue.take n = before ++ command :: rest) ∨
      ∃ skipped left, before = skipped ++ left ∧ queue.take n = skipped ∧ queue.drop n = left ++ command :: behind := by
  subst whole
  by_cases short : n ≤ before.length
  · apply Or.inr
    refine ⟨before.take n, before.drop n, (List.take_append_drop n before).symm, ?_, ?_⟩
    · exact List.take_append_of_le_length short
    · exact List.drop_append_of_le_length short
  · apply Or.inl
    obtain ⟨k, rfl⟩ : ∃ k, n = before.length + (k + 1) := ⟨n - before.length - 1, by omega⟩
    exact ⟨behind.take k, by rw [List.take_length_add_append, List.take_succ_cons]⟩

/-- A queued command is behind a compaction that is taken off the queue. -/
theorem Stands.passed {before behind rest : List WalCommand} {head : WalCommand} {ok : Bool} (own : sender ≠ .compaction)
    (queue : w.queue = before ++ .write sender records :: behind) (unanswered : w.outcomes sender = none)
    (begun : w.flushed <+: ahead) (next : w.failed = false → w.flushed ++ before.flatMap WalCommand.records = ahead)
    (first : w.queue = head :: rest) (compaction : head.sender = .compaction) (empty : head.records = [])
    (shorter : w'.queue = w.queue.drop 1) (outcomes : w'.outcomes = (w.answer 1 ok).outcomes) (flushed : w'.flushed = w.flushed)
    (failed : w'.failed = w.failed) : w'.Stands sender ahead records := by
  have still : w'.outcomes sender = none := by
    rw [outcomes, answer_outcomes, first]
    simp [compaction, own, unanswered]
  rw [first, List.drop_succ_cons, List.drop_zero] at shorter
  cases before with
  | nil =>
      cases queue.symm.trans first
      exact (own (by simpa using compaction)).elim
  | cons c before =>
      cases queue.symm.trans first
      apply Stands.queued shorter still (flushed ▸ begun)
      intro running
      have nearer := next (failed ▸ running)
      rwa [List.flatMap_cons, empty, List.nil_append, ← flushed] at nearer

/-- A step of the writer reaches the command with all before it, or takes some of what is before it. -/
theorem Stands.took (stands : w.Stands sender ahead records) (own : sender ≠ .compaction)
    (answered : w.outcomes sender ≠ none → sender ∉ w.queue.map WalCommand.sender) (front : w.FromFront)
    (senders : (w.queue.map WalCommand.sender).Nodup) (took : w.Took w') : w'.Stands sender ahead records := by
  have worked := (front.took took).2
  have kept : ∀ {n ok}, w'.outcomes = (w.answer n ok).outcomes → w.outcomes sender ≠ none →
      w'.outcomes sender = w.outcomes sender := by
    intro n ok outcomes already
    rw [outcomes, answer_outcomes]
    exact if_neg fun first => answered already ((List.take_sublist n _).map _ |>.subset first)
  cases stands with
  | @queued before behind queue unanswered begun next =>
      have alone : ∀ {skipped left : List WalCommand}, before = skipped ++ left → sender ∉ skipped.map WalCommand.sender := by
        intro skipped left cut first
        rw [queue, cut, List.append_assoc, List.map_append] at senders
        exact (List.nodup_append.mp senders).2.2 sender first sender (by simp) rfl
      cases took with
      | flushed n _ running =>
          rcases take_command queue n with ⟨rest, reached⟩ | ⟨skipped, left, cut, taken, dropped⟩
          · apply Stands.durable
            · simp [answer, reached]
            · simp only [reached, ← next running, List.flatMap_append, List.flatMap_cons, WalCommand.write_records,
                ← List.append_assoc]
              exact List.prefix_append _ _
          · have behindAll : w.flushed ++ (w.queue.take n).flatMap WalCommand.records ++
                left.flatMap WalCommand.records = ahead := by
              rw [← next running, taken, cut, List.flatMap_append, List.append_assoc]
            apply Stands.queued dropped
            · exact (if_neg (taken ▸ alone cut)).trans unanswered
            · exact ⟨_, behindAll⟩
            · exact fun _ => behindAll
      | refused n =>
          rcases take_command queue n with ⟨rest, reached⟩ | ⟨skipped, left, cut, taken, dropped⟩
          · apply Stands.lost
            · simp [answer, reached]
            · rfl
            · exact begun
          · apply Stands.queued dropped
            · exact (if_neg (taken ▸ alone cut)).trans unanswered
            · exact begun
            · exact fun running => by cases running
      | began head | compacted head | stopped head | swapped head | kept head =>
          exact Stands.passed own queue unanswered begun next head rfl rfl rfl rfl rfl rfl
  | durable acked flushed =>
      have already : w.outcomes sender ≠ none := fun none => by cases none.symm.trans acked
      cases worked with
      | nothing n ok _ outcomes same =>
          exact .durable ((kept outcomes already).trans acked) (same ▸ flushed)
      | batch n _ _ _ outcomes longer =>
          exact .durable ((kept outcomes already).trans acked) (longer ▸ flushed.trans (List.prefix_append _ _))
  | lost refused stopped begun =>
      have already : w.outcomes sender ≠ none := fun none => by cases none.symm.trans refused
      cases worked with
      | nothing n ok _ outcomes same =>
          exact .lost ((kept outcomes already).trans refused) (took.failed stopped) (same ▸ begun)
      | batch n running => cases stopped.symm.trans running

end LogWriter

/-! ## A request and its answer -/

namespace Tenant

variable {shards : Shards} {s t t' u : Tenant} {a : Action} {i : TaskId} {ahead records : List Event}

/-- A request whose command stands in the log knows no other answer than the writer's. -/
structure Told (t : Tenant) (i : TaskId) (ahead records : List Event) : Prop where
  queued : t.Queued
  stands : t.writer.Stands (.request i) ahead records
  handed : ahead ++ records <+: t.writer.handed
  answer : (t.tasks i).queued = true ∨ ∃ ok, t.tasks i = .answered ok ∧ t.writer.outcomes (.request i) = some ok

theorem Took.handed_grows (took : t.Took shards a t') : t.writer.handed <+: t'.writer.handed := by
  have worked : ∀ {w w' : LogWriter}, w.Took w' → w'.handed = w.handed := by
    intro w w' took
    cases took <;> rfl
  rcases took.pushes with same | ⟨command, pushed, _⟩ | taken
  · rw [same]
  · rw [pushed]
    exact List.prefix_append _ _
  · rw [worked taken]

/-- Only the request itself queues a command of its own, when it sends. -/
theorem Took.pushes_other (took : t.Took shards a t') (after : ∀ request held records, t.tasks i ≠ .sending request held records) :
    t'.writer = t.writer ∨ (∃ command, t'.writer = t.writer.push command ∧ .request i ≠ command.sender) ∨
      t.writer.Took t'.writer := by
  cases took with
  | @send j request held records phase =>
      refine .inr (.inl ⟨_, rfl, fun same => ?_⟩)
      rw [WalCommand.write_sender] at same
      cases same
      exact after _ _ _ phase
  | sendCreate | sendDelete | beginCompaction | submit => exact .inr (.inl ⟨_, rfl, fun same => by cases same⟩)
  | flush _ took | handle _ took => exact .inr (.inr took)
  | _ => exact .inl rfl

/-- A sender reads its answer and nothing else, and keeps it. -/
theorem Told.answered (told : t.Told i ahead records) (took : t.Took shards a t') : (t'.tasks i).queued = true ∨
    ∃ ok, t'.tasks i = .answered ok ∧ t.writer.outcomes (.request i) = some ok := by
  by_cases own : a.task = some i
  · rcases told.answer with waits | ⟨ok, phase, outcome⟩
    · cases took with
      | start phase | lookUp phase | lock phase | allLocked phase | claim phase | check phase | send phase =>
          cases own
          simp [phase, Task.queued] at waits
      | apply | release =>
          cases own
          simp [Task.queued]
      | fail _ _ outcome | answer _ outcome =>
          cases own
          exact .inr ⟨_, setTask_self .., outcome⟩
      | refuse before =>
          cases own
          rcases before with ⟨_, _, _, _, phase⟩ | ⟨_, _, _, _, phase⟩ <;>
            rw [phase] at waits <;> cases waits
      | _ => cases own
    · cases took with
      | start before | lookUp before | lock before | allLocked before | claim before | check before | send before
      | apply before | release before | fail before | answer before => cases own; cases phase.symm.trans before
      | refuse before =>
          cases own
          rcases before with ⟨_, _, _, _, before⟩ | ⟨_, _, _, _, before⟩ <;> cases phase.symm.trans before
      | _ => cases own
  · rw [took.tasks_other own]
    exact told.answer

theorem Told.outcome (told : t.Told i ahead records) {ok : Bool} (phase : t.tasks i = .answered ok) :
    t.writer.outcomes (.request i) = some ok := by
  rcases told.answer with waits | ⟨told, answered, outcome⟩
  · rw [phase] at waits
    cases waits
  · cases phase.symm.trans answered
    exact outcome

theorem Told.took (told : t.Told i ahead records) (took : t.Took shards a t') : t'.Told i ahead records := by
  have past : ∀ request held records, t.tasks i ≠ .sending request held records := by
    intro request held records phase
    rcases told.answer with waits | ⟨_, answered, _⟩
    · rw [phase] at waits
      cases waits
    · cases phase.symm.trans answered
  have answered : t.writer.outcomes (.request i) ≠ none → .request i ∉ t.writer.queue.map WalCommand.sender := by
    intro already inside
    obtain ⟨c, there, mine⟩ := List.mem_map.mp inside
    exact already (mine ▸ (told.queued.waiting c there).2)
  have kept : ∀ {ok}, t.writer.outcomes (.request i) = some ok → t'.writer.outcomes (.request i) = some ok := by
    intro ok outcome
    rcases took.pushes_other past with same | ⟨command, pushed, other⟩ | worked
    · rwa [same]
    · rw [pushed, LogWriter.push_outcomes other, outcome]
    · obtain ⟨n, _, _, outcomes, _⟩ := worked.answers
      rw [outcomes, LogWriter.answer_outcomes, if_neg, outcome]
      intro first
      exact answered (by simp [outcome]) ((List.take_sublist n _).map _ |>.subset first)
  refine ⟨told.queued.took took, ?_, told.handed.trans took.handed_grows, ?_⟩
  · rcases took.pushes_other past with same | ⟨command, pushed, other⟩ | worked
    · exact same ▸ told.stands
    · exact pushed ▸ told.stands.push other
    · exact told.stands.took (fun same => by cases same) answered told.queued.front told.queued.senders worked
  · rcases told.answered took with waits | ⟨ok, phase, outcome⟩
    · exact .inl waits
    · exact .inr ⟨ok, phase, kept outcome⟩

/-- From when a request has queued its records. -/
theorem Queued.told (queued : s.Queued) {request : Request.Prepared} {held : List Handle}
    (phase : s.tasks i = .sending request held records) (sent : s.step shards (.send i) = some t) :
    t.Told i s.writer.handed records := by
  have after := queued.took (Tenant.took sent)
  simp only [step, Tenant.send, phase, Option.some.injEq] at sent
  subst sent
  refine ⟨after, queued.front.stands, ?_, .inl ?_⟩
  · simp [LogWriter.push]
  · simp [Task.queued]

/-- A tenant that has stopped flushes nothing any more. -/
theorem stopped_flushes_nothing (stopped : t.writer.failed = true)
    (reached : Reaches (step shards) (fun _ _ => True) t u) : u.writer.flushed = t.writer.flushed := by
  have frozen : u.writer.failed = true ∧ u.writer.flushed = t.writer.flushed :=
    reached.invariant (I := fun u => u.writer.failed = true ∧ u.writer.flushed = t.writer.flushed) ⟨stopped, rfl⟩
      fun u a u' inv _ taken => by
        rcases (Tenant.took taken).pushes with same | ⟨command, pushed, _⟩ | worked
        · rwa [same]
        · rwa [pushed]
        · exact ⟨worked.failed inv.1, (worked.freezes inv.1).trans inv.2⟩
  exact frozen.2

/-- Whether a request has its records ready, or which answer it has. -/
def progress : Task → Option (List Event ⊕ Bool)
  | .sending _ _ records => some (.inl records)
  | .answered ok => some (.inr ok)
  | _ => none

end Tenant

end Deltat
