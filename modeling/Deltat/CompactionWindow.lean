import Deltat.ResourceForest

/-! # The window of a compaction

From the beginning of a compaction to its end the log writer records what it flushes. What is
recorded and what is still queued is the window of the compaction: a command comes behind it, and
a flush moves its front from the queue to the record.
-/

namespace Deltat

open Lib

/-- A flush that does not stop the writer goes through. -/
theorem LogWriter.flush_running {w w' : LogWriter} {n : Nat} {ok : Bool} (taken : w.flush n ok = some w')
    (running : w'.failed = false) : ok = true := by
  cases ok with
  | true => rfl
  | false =>
      unfold flush at taken
      simp only at taken
      split at taken
      · cases taken
        cases running
      · cases taken

namespace Tenant

variable {shards : Shards} {t t' : Tenant} {a : Action}

/-- A writer that has not failed has not failed before. -/
theorem Took.running (took : t.Took shards a t') (running : t'.writer.failed = false) : t.writer.failed = false := by
  rcases took.writer with same | ⟨_, pushed⟩ | worked
  · rw [← same]
    exact running
  · rw [pushed] at running
    exact running
  · by_contra failed
    cases (worked.failed (by simpa using failed)).symm.trans running

/-- What was recorded since a compaction began, and what is queued. -/
def inWindow (t : Tenant) : List Event := t.writer.recording.getD [] ++ t.writer.unflushed

theorem Serving.inWindow_eq (serving : t.Serving) :
    t.inWindow = t.writer.recording.getD [] ++ t.writer.queue.flatMap WalCommand.records := by
  rw [inWindow, serving.queued.front.queued serving.running]

/-- What is queued comes behind what is recorded. -/
theorem Serving.inWindow_push (serving : t.Serving) {command : WalCommand} (writer : t'.writer = t.writer.push command) :
    t'.inWindow = t.inWindow ++ command.records := by
  rw [inWindow, inWindow, writer, serving.queued.front.push_unflushed, ← List.append_assoc]
  rfl

/-- What is flushed goes from the queue to the record, where there is one. -/
theorem Serving.inWindow_flush (serving : t.Serving) {n : Nat} {writer : LogWriter}
    (taken : t.writer.flush n true = some writer) (serving' : ({ t with writer } : Tenant).Serving) :
    (t.writer.recording.isSome → ({ t with writer } : Tenant).inWindow = t.inWindow) ∧
      ∃ before, t.inWindow = before ++ ({ t with writer } : Tenant).inWindow := by
  have split : t.writer.queue.flatMap WalCommand.records = (t.writer.queue.take n).flatMap WalCommand.records ++
      (t.writer.queue.drop n).flatMap WalCommand.records := by
    rw [← List.flatMap_append, List.take_append_drop]
  rw [serving.inWindow_eq, serving'.inWindow_eq, LogWriter.flush_whole taken serving.attached, split]
  cases t.writer.recording with
  | none => exact ⟨fun absent => (by cases absent), (t.writer.queue.take n).flatMap WalCommand.records, rfl⟩
  | some records =>
      have same : ((some records).map (· ++ (t.writer.queue.take n).flatMap WalCommand.records)).getD [] ++
          (t.writer.queue.drop n).flatMap WalCommand.records = (some records).getD [] ++
            ((t.writer.queue.take n).flatMap WalCommand.records ++ (t.writer.queue.drop n).flatMap WalCommand.records) :=
        List.append_assoc ..
      exact ⟨fun _ => same, [], same.symm⟩

/-- What the writer does for a compaction leaves what is queued. -/
theorem Serving.inWindow_handle (serving : t.Serving) {fault : Option CompactFault} {writer : LogWriter}
    (taken : t.writer.handle fault = some writer) (harmless : ∀ f, fault = some f → f.renamed = false)
    (serving' : ({ t with writer } : Tenant).Serving) :
    ∃ before, t.inWindow = before ++ ({ t with writer } : Tenant).inWindow := by
  refine ⟨t.writer.recording.getD [], ?_⟩
  rw [serving.inWindow_eq, serving'.inWindow_eq]
  rcases LogWriter.handle_harmless taken harmless serving.running serving.attached with
    ⟨_, head, same⟩ | ⟨_, _, head, _, _, same⟩
  · rw [same, head]
    simp [LogWriter.answer, head, WalCommand.records]
  · rw [same, head]
    simp [LogWriter.answer, head, WalCommand.records]

/-! ## Where the compaction is -/

/-- A flush leaves the commands of a compaction in the queue. -/
theorem flush_leaves {n : Nat} {ok : Bool} {writer : LogWriter} (taken : t.writer.flush n ok = some writer) {c : WalCommand}
    (inside : c ∈ t.writer.queue) (kind : c = .compactBegin ∨ ∃ events, c = .compact events) :
    c ∈ t.writer.queue.drop n := by
  rw [← List.take_append_drop n t.writer.queue] at inside
  refine (List.mem_append.mp inside).resolve_left fun first => ?_
  unfold LogWriter.flush at taken
  simp only at taken
  split at taken
  · next one =>
      unfold WalCommand.oneFlush at one
      split at one
      · cases one
      · next batch =>
          rw [batch] at first
          cases List.mem_singleton.mp first
          rcases kind with same | ⟨_, same⟩ <;> cases same
      · have append := List.all_eq_true.mp one c first
        rcases kind with rfl | ⟨_, rfl⟩ <;> cases append
  · cases taken

/-- Where a compaction is tells what is queued of it, and whether the writer records. -/
structure Phased (t : Tenant) : Prop where
  begins : .compactBegin ∈ t.writer.queue → t.compaction = .beginning
  merges : ∀ events, .compact events ∈ t.writer.queue → t.compaction = .submitted
  recording : t.compaction = .idle ∨ .compactBegin ∈ t.writer.queue ∨
    (t.compaction = .submitted ∧ ∀ events, .compact events ∉ t.writer.queue) ∨ t.writer.recording.isSome
  recent : ∀ window, t.writer.recording = some window → window <:+ t.writer.flushed

theorem on_phased (e : Engine) : (on e).Phased where
  begins inside := (List.not_mem_nil inside).elim
  merges _ inside := (List.not_mem_nil inside).elim
  recording := .inl rfl
  recent _ recording := by cases recording

theorem Phased.recorded (phased : t.Phased) (busy : t.compaction ≠ .idle) (begun : t.compaction ≠ .beginning)
    (unmerged : t.compaction = .submitted → ∃ events, .compact events ∈ t.writer.queue) :
    ∃ records, t.writer.recording = some records := by
  apply Option.isSome_iff_exists.mp
  rcases phased.recording with idle | entering | ⟨submitted, none⟩ | recording
  · exact absurd idle busy
  · exact absurd (phased.begins entering) begun
  · obtain ⟨events, inside⟩ := unmerged submitted
    exact absurd inside (none events)
  · exact recording

/-- A command of a compaction is queued by the step that waits for it. -/
theorem Serving.compaction_queued (serving : t.Serving) (took : t.Took shards a t') {c : WalCommand}
    (inside : c ∈ t'.writer.queue) (sender : c.sender = .compaction) :
    c ∈ t.writer.queue ∧ t'.compaction = t.compaction ∨ c = .compactBegin ∧ t'.compaction = .beginning ∨
      ∃ events, c = .compact events ∧ t'.compaction = .submitted := by
  have others : ∀ {command : WalCommand}, command.sender ≠ .compaction → c ∈ t.writer.queue ++ [command] →
      c ∈ t.writer.queue := by
    intro command other inside
    rcases List.mem_append.mp inside with there | now
    · exact there
    · cases List.mem_singleton.mp now
      exact absurd sender other
  have none_queued := fun answered => serving.none_queued answered c sender
  cases took with
  | send =>
      refine .inl ⟨others (fun same => ?_) inside, rfl⟩
      rw [WalCommand.write_sender] at same
      cases same
  | sendCreate | sendDelete => exact .inl ⟨others (fun same => by cases same) inside, rfl⟩
  | flush _ worked | handle _ worked =>
      obtain ⟨n, _, queue, _⟩ := worked.answers
      simp only [queue] at inside
      exact .inl ⟨List.mem_of_mem_drop inside, rfl⟩
  | beginCompaction phase =>
      rcases List.mem_append.mp inside with there | now
      · exact absurd there (none_queued (.inl (by rw [phase]; rfl)))
      · exact .inr (.inl ⟨List.mem_singleton.mp now, rfl⟩)
  | submit phase =>
      rcases List.mem_append.mp inside with there | now
      · exact absurd there (none_queued (.inl (by rw [phase]; rfl)))
      · exact .inr (.inr ⟨_, List.mem_singleton.mp now, rfl⟩)
  | enterWindow _ outcome | finishCompaction _ outcome =>
      exact absurd inside (none_queued (.inr (by rw [outcome]; exact fun same => by cases same)))
  | list phase | allListed phase | lookSnapshot phase | snapshot phase =>
      exact absurd inside (none_queued (.inl (by rw [phase]; rfl)))
  | _ => exact .inl ⟨inside, rfl⟩

theorem Phased.recording_took (phased : t.Phased) (serving : t.Serving) (took : t.Took shards a t') (harmless : a.Harmless) :
    t'.compaction = .idle ∨ .compactBegin ∈ t'.writer.queue ∨
      (t'.compaction = .submitted ∧ ∀ events, .compact events ∉ t'.writer.queue) ∨ t'.writer.recording.isSome := by
  have before := phased.recording
  -- A compaction that has nothing queued and is neither idle nor at its ends.
  have open' : t.compaction ≠ .idle → t.compaction.queued = false ∨ t.writer.outcomes .compaction ≠ none →
      t.compaction ≠ .submitted → t.writer.recording.isSome := by
    intro busy answered other
    rcases before with idle | entering | ⟨submitted, _⟩ | recording
    · exact absurd idle busy
    · exact absurd entering (serving.none_queued answered _ rfl)
    · exact absurd submitted other
    · exact recording
  have pushed : ∀ {command : WalCommand} {writer : LogWriter}, writer = t.writer.push command →
      command.sender ≠ .compaction → t.compaction = .idle ∨ .compactBegin ∈ writer.queue ∨
        (t.compaction = .submitted ∧ ∀ events, .compact events ∉ writer.queue) ∨ writer.recording.isSome := by
    rintro command _ rfl other
    rcases before with idle | entering | ⟨submitted, none⟩ | recording
    · exact .inl idle
    · exact .inr (.inl (List.mem_append_left _ entering))
    · refine .inr (.inr (.inl ⟨submitted, fun events inside => ?_⟩))
      rcases List.mem_append.mp inside with there | now
      · exact none events there
      · cases List.mem_singleton.mp now
        exact other rfl
    · exact .inr (.inr (.inr recording))
  cases took with
  | send =>
      apply pushed rfl
      rw [WalCommand.write_sender]
      exact fun same => by cases same
  | sendCreate | sendDelete => exact pushed rfl fun same => by cases same
  | @flush n ok writer taken =>
      cases harmless
      have whole := LogWriter.flush_whole taken serving.attached
      rcases before with idle | entering | ⟨submitted, none⟩ | recording
      · exact .inl idle
      · refine .inr (.inl ?_)
        rw [whole]
        exact flush_leaves taken entering (.inl rfl)
      · refine .inr (.inr (.inl ⟨submitted, fun events inside => none events ?_⟩))
        rw [whole] at inside
        exact List.mem_of_mem_drop inside
      · refine .inr (.inr (.inr ?_))
        rw [whole]
        exact Option.isSome_map.trans recording
  | handle taken =>
      rcases LogWriter.handle_harmless taken harmless serving.running serving.attached with
        ⟨_, _, same⟩ | ⟨events, rest, head, _, _, same⟩
      · rw [same]
        exact .inr (.inr (.inr rfl))
      · have submitted := phased.merges events (by rw [head]; exact List.mem_cons_self)
        refine .inr (.inr (.inl ⟨submitted, fun others inside => ?_⟩))
        have distinct := serving.queued.senders
        rw [same] at inside
        simp only [LogWriter.answer, head, List.drop_succ_cons, List.drop_zero] at inside
        rw [head, List.map_cons, List.nodup_cons] at distinct
        exact distinct.1 (List.mem_map.mpr ⟨_, inside, rfl⟩)
  | beginCompaction => exact .inr (.inl (List.mem_append_right _ (List.mem_singleton.mpr rfl)))
  | enterWindow phase outcome =>
      refine .inr (.inr (.inr (open' ?_ (.inr ?_) ?_)))
      · rw [phase]; exact fun same => by cases same
      · rw [outcome]; exact fun same => by cases same
      · rw [phase]; exact fun same => by cases same
  | list phase | allListed phase | lookSnapshot phase | snapshot phase | submit phase =>
      refine .inr (.inr (.inr (open' ?_ (.inl ?_) ?_)))
      · rw [phase]; exact fun same => by cases same
      · rw [phase]; rfl
      · rw [phase]; exact fun same => by cases same
  | finishCompaction => exact .inl rfl
  | _ => exact before

theorem Phased.recent_took (phased : t.Phased) (took : t.Took shards a t') (window : List Event)
    (recording : t'.writer.recording = some window) : window <:+ t'.writer.flushed := by
  have worked : ∀ {writer : LogWriter}, t.writer.Took writer → writer.recording = some window → window <:+ writer.flushed := by
    intro writer took recording
    cases took with
    | flushed =>
        obtain ⟨before, was, rfl⟩ := Option.map_eq_some_iff.mp recording
        obtain ⟨front, whole⟩ := phased.recent before was
        refine ⟨front, ?_⟩
        rw [← whole, List.append_assoc]
    | refused => exact phased.recent window recording
    | began =>
        cases recording
        exact List.nil_suffix
    | stopped | compacted | swapped | kept => cases recording
  rcases took.writer with same | ⟨_, pushed⟩ | took
  · rw [same] at recording ⊢
    exact phased.recent window recording
  · rw [pushed] at recording ⊢
    exact phased.recent window recording
  · exact worked took recording

theorem Phased.took (phased : t.Phased) (serving : t.Serving) (took : t.Took shards a t') (harmless : a.Harmless) :
    t'.Phased where
  begins inside := by
    rcases serving.compaction_queued took inside rfl with ⟨there, same⟩ | ⟨_, beginning⟩ | ⟨_, other, _⟩
    · exact same.trans (phased.begins there)
    · exact beginning
    · cases other
  merges events inside := by
    rcases serving.compaction_queued took inside rfl with ⟨there, same⟩ | ⟨other, _⟩ | ⟨_, _, submitted⟩
    · exact same.trans (phased.merges events there)
    · cases other
    · exact submitted
  recording := phased.recording_took serving took harmless
  recent := phased.recent_took took

/-! ## The snapshot in the queue -/

/-- A compaction is queued once. -/
theorem Serving.only_compact (serving : t.Serving) {events : List Event} {behind : List WalCommand}
    (head : t.writer.queue = .compact events :: behind) (other : List Event) : .compact other ∉ behind := by
  intro inside
  have distinct := serving.queued.senders
  rw [head, List.map_cons, List.nodup_cons] at distinct
  exact distinct.1 (List.mem_map.mpr ⟨_, inside, rfl⟩)

/-- A snapshot is queued behind all that is, or was queued before: the records in front of it go
    from the queue to the record, and those of others come behind it. -/
theorem Phased.compact_took (phased : t.Phased) (serving : t.Serving) (took : t.Took shards a t')
    (harmless : a.Harmless) {ahead behind : List WalCommand} {events : List Event}
    (queue : t'.writer.queue = ahead ++ .compact events :: behind) :
    (∃ snapshots, a = .submit ∧ t.compaction = .snapshotting snapshots none [] ∧
      events = Compaction.snapshotEvents snapshots ∧ ahead = t.writer.queue ∧ behind = []) ∨
    ∃ ahead₀ behind₀, t.writer.queue = ahead₀ ++ .compact events :: behind₀ ∧
      t'.writer.recording.getD [] ++ ahead.flatMap WalCommand.records =
        t.writer.recording.getD [] ++ ahead₀.flatMap WalCommand.records ∧
      t'.writer.flushed ++ ahead.flatMap WalCommand.records = t.writer.flushed ++ ahead₀.flatMap WalCommand.records ∧
      ((∀ i, a ≠ .send i) ∧ behind = behind₀ ∨ ∃ command, (a = .sendTopology ∨ ∃ i, a = .send i) ∧
        t'.writer = t.writer.push command ∧ behind = behind₀ ++ [command]) := by
  have submitted : ∀ {ahead₀ behind₀}, t.writer.queue = ahead₀ ++ .compact events :: behind₀ →
      t.compaction = .submitted := by
    intro _ _ split
    exact phased.merges events (by rw [split]; simp)
  -- Somebody else queues a command.
  have pushed : ∀ {command : WalCommand}, t.writer.queue ++ [command] = ahead ++ .compact events :: behind →
      command.sender ≠ .compaction →
      ∃ front, t.writer.queue = ahead ++ .compact events :: front ∧ behind = front ++ [command] := by
    intro command queue other
    rcases List.eq_nil_or_concat behind with rfl | ⟨front, last, rfl⟩
    · obtain ⟨_, isCompact⟩ := List.append_singleton_inj.mp queue
      rw [isCompact] at other
      exact absurd rfl other
    · rw [List.concat_eq_append, ← List.cons_append, ← List.append_assoc] at queue
      obtain ⟨before, rfl⟩ := List.append_singleton_inj.mp queue
      exact ⟨front, before, List.concat_eq_append⟩
  cases took with
  | send =>
      obtain ⟨front, before, behind⟩ := pushed queue fun same => by rw [WalCommand.write_sender] at same; cases same
      exact .inr ⟨ahead, front, before, rfl, rfl, .inr ⟨_, .inr ⟨_, rfl⟩, rfl, behind⟩⟩
  | sendCreate | sendDelete =>
      obtain ⟨front, before, behind⟩ := pushed queue fun same => by cases same
      exact .inr ⟨ahead, front, before, rfl, rfl, .inr ⟨_, .inl rfl, rfl, behind⟩⟩
  | @flush n ok writer taken =>
      cases harmless
      have whole := LogWriter.flush_whole taken serving.attached
      rw [whole] at queue
      have before : t.writer.queue = (t.writer.queue.take n ++ ahead) ++ .compact events :: behind := by
        rw [List.append_assoc, ← queue]
        exact (List.take_append_drop ..).symm
      have merging := submitted before
      obtain ⟨records, recording⟩ := phased.recorded (by rw [merging]; exact fun same => by cases same)
        (by rw [merging]; exact fun same => by cases same) fun _ => ⟨events, by rw [before]; simp⟩
      refine .inr ⟨_, _, before, ?_, ?_, .inl ⟨fun i same => (by cases same), rfl⟩⟩
      · rw [whole, recording, List.flatMap_append, ← List.append_assoc]
        rfl
      · rw [whole, List.flatMap_append, ← List.append_assoc]
  | handle taken =>
      rcases LogWriter.handle_harmless taken harmless serving.running serving.attached with
        ⟨rest, head, whole⟩ | ⟨_, rest, head, _, _, whole⟩
      · have began := phased.begins (by rw [head]; exact List.mem_cons_self)
        rw [whole] at queue
        simp only [LogWriter.answer, head, List.drop_succ_cons, List.drop_zero] at queue
        rw [queue, ← List.cons_append] at head
        cases began.symm.trans (submitted head)
      · rw [whole] at queue
        simp only [LogWriter.answer, head, List.drop_succ_cons, List.drop_zero] at queue
        refine absurd ?_ (serving.only_compact head events)
        rw [queue]
        simp
  | beginCompaction phase =>
      rcases List.eq_nil_or_concat behind with rfl | ⟨front, last, rfl⟩
      · obtain ⟨_, isCompact⟩ := List.append_singleton_inj.mp queue
        cases isCompact
      · rw [List.concat_eq_append, ← List.cons_append, ← List.append_assoc] at queue
        cases phase.symm.trans (submitted (List.append_singleton_inj.mp queue).1)
  | submit phase =>
      rcases List.eq_nil_or_concat behind with rfl | ⟨front, last, rfl⟩
      · obtain ⟨rfl, isCompact⟩ := List.append_singleton_inj.mp queue
        cases isCompact
        exact .inl ⟨_, rfl, phase, rfl, rfl, rfl⟩
      · rw [List.concat_eq_append, ← List.cons_append, ← List.append_assoc] at queue
        cases phase.symm.trans (submitted (List.append_singleton_inj.mp queue).1)
  | _ => exact .inr ⟨ahead, behind, queue, rfl, rfl, .inl ⟨fun i same => (by cases same), rfl⟩⟩

end Tenant

end Deltat
