import Mathlib.Data.List.Nodup
import Mathlib.Data.Prod.Lex
import Mathlib.Order.WithBot
import Deltat.Lib.Cycles
import Deltat.Lib.Machine

/-! # Taking locks in order

Tasks run programs that take and give back locks, hand commands to a server and wait for its
answers. Locks go first come, first served, and so do the places in the server's queue. When
every program takes its locks in the order of a rank, tasks never wait in a circle.
-/

namespace Lib.Locking

open Cycles Machine

variable {L : Type}

inductive Mode where
  | shared
  | exclusive
  deriving DecidableEq

def Mode.compatible : Mode → Mode → Bool
  | shared, shared => true
  | _, _ => false

inductive Instr (L : Type) where
  | lock (l : L) (mode : Mode)
  | unlock (l : L)
  /-- Hand a command to the server, when its queue has a place. -/
  | send
  /-- Wait for the answer to the command. -/
  | answer
  deriving DecidableEq

/-! ## Programs -/

/-- What is held after a program. -/
def after [DecidableEq L] : List L → List (Instr L) → List L
  | held, [] => held
  | held, .lock l _ :: rest => after (held ++ [l]) rest
  | held, .unlock l :: rest => after (held.erase l) rest
  | held, .send :: rest | held, .answer :: rest => after held rest

/-- Whether every lock is above those held when it is asked for. -/
def Ordered [DecidableEq L] (rank : L → Nat) : List L → List (Instr L) → Prop
  | _, [] => True
  | held, .lock l _ :: rest => (∀ k ∈ held, rank k < rank l) ∧ Ordered rank (held ++ [l]) rest
  | held, .unlock l :: rest => Ordered rank (held.erase l) rest
  | held, .send :: rest | held, .answer :: rest => Ordered rank held rest

/-- Whether commands and answers alternate, from a state with a command out or none, to one. -/
def Paired : Bool → List (Instr L) → Bool → Prop
  | out, [], out' => out = out'
  | out, .lock _ _ :: rest, out' | out, .unlock _ :: rest, out' => Paired out rest out'
  | out, .send :: rest, out' => out = false ∧ Paired true rest out'
  | out, .answer :: rest, out' => out = true ∧ Paired false rest out'

/-- A program that takes its locks in order, gives all of them back and reads its answers. -/
structure Closed [DecidableEq L] (rank : L → Nat) (program : List (Instr L)) : Prop where
  ordered : Ordered rank [] program
  released : after [] program = []
  paired : Paired false program false

theorem Paired.append {p q : List (Instr L)} {out between out' : Bool} (first : Paired out p between) (second : Paired between q out') :
    Paired out (p ++ q) out' := by
  induction p generalizing out with
  | nil =>
      cases first
      exact second
  | cons instr rest ih =>
      cases instr with
      | lock | unlock => exact ih first
      | send | answer => exact ⟨first.1, ih first.2⟩

theorem paired_locks {out : Bool} {mode : Mode} (ls : List L) : Paired out (ls.map (.lock · mode)) out := by
  induction ls with
  | nil => rfl
  | cons l rest ih => exact ih

theorem paired_unlocks {out : Bool} (ls : List L) : Paired out (ls.map .unlock) out := by
  induction ls with
  | nil => rfl
  | cons l rest ih => exact ih

section Programs

variable [DecidableEq L] {rank : L → Nat} {held : List L} {p q : List (Instr L)}

theorem after_append : after held (p ++ q) = after (after held p) q := by
  induction held, p using after.induct with
  | case1 => rfl
  | case2 _ _ _ _ ih | case3 _ _ _ ih | case4 _ _ ih | case5 _ _ ih => exact ih

theorem ordered_append : Ordered rank held (p ++ q) ↔ Ordered rank held p ∧ Ordered rank (after held p) q := by
  induction held, p using after.induct with
  | case1 => simp [Ordered, after]
  | case2 _ _ _ _ ih => simp [Ordered, after, ih, and_assoc]
  | case3 _ _ _ ih | case4 _ _ ih | case5 _ _ ih => simp [Ordered, after, ih]

theorem after_locks {mode : Mode} (ls : List L) : after held (ls.map (.lock · mode)) = held ++ ls := by
  induction ls generalizing held with
  | nil => simp [after]
  | cons l rest ih => simp [after, ih]

theorem after_unlocks (ls : List L) : after ls (ls.map .unlock) = [] := by
  induction ls with
  | nil => rfl
  | cons l rest ih => simp [after, ih]

theorem ordered_locks {mode : Mode} {ls : List L} (above : ∀ k ∈ held, ∀ l ∈ ls, rank k < rank l)
    (rising : ls.Pairwise fun k l => rank k < rank l) : Ordered rank held (ls.map (.lock · mode)) := by
  induction ls generalizing held with
  | nil => exact trivial
  | cons l rest ih =>
      obtain ⟨first, rising⟩ := List.pairwise_cons.mp rising
      refine ⟨fun k inside => above k inside l List.mem_cons_self, ih (fun k inside l' later => ?_) rising⟩
      rcases List.mem_append.mp inside with before | now
      · exact above k before l' (List.mem_cons_of_mem _ later)
      · cases List.mem_singleton.mp now
        exact first l' later

theorem ordered_unlocks (ls : List L) : Ordered rank held (ls.map .unlock) := by
  induction ls generalizing held with
  | nil => exact trivial
  | cons l rest ih => exact ih

theorem Closed.nil : Closed rank [] := ⟨trivial, rfl, rfl⟩

theorem Closed.append (first : Closed rank p) (second : Closed rank q) : Closed rank (p ++ q) where
  ordered := ordered_append.mpr ⟨first.ordered, by rw [first.released]; exact second.ordered⟩
  released := by rw [after_append, first.released, second.released]
  paired := first.paired.append second.paired

theorem Closed.flatten {ps : List (List (Instr L))} (each : ∀ p ∈ ps, Closed rank p) : Closed rank ps.flatten := by
  induction ps with
  | nil => exact .nil
  | cons p rest ih =>
      exact (each p List.mem_cons_self).append (ih fun q inside => each q (List.mem_cons_of_mem _ inside))

theorem Closed.flatMap {α : Type} {f : α → List (Instr L)} {xs : List α} (each : ∀ x ∈ xs, Closed rank (f x)) :
    Closed rank (xs.flatMap f) :=
  .flatten fun p inside => by
    obtain ⟨x, found, rfl⟩ := List.mem_map.mp inside
    exact each x found

end Programs

/-! ## Systems -/

structure Task (L : Type) where
  held : List L
  rest : List (Instr L)
  /-- Whether the task has lined up for what it needs next. -/
  asked : Bool

structure System (L : Type) where
  tasks : Nat → Option (Task L)
  /-- Who has a lock, and who waits for it in which order. -/
  holders : L → List (Nat × Mode)
  queues : L → List (Nat × Mode)
  /-- Who waits for a place in the server's queue. -/
  senders : List Nat
  /-- Whose commands are in the server's queue. -/
  commands : List Nat
  answered : Nat → Bool

namespace System

variable [DecidableEq L]

def idle : System L := ⟨fun _ => none, fun _ => [], fun _ => [], [], [], fun _ => false⟩

variable (s : System L)

def setTask (i : Nat) (t : Task L) : System L := { s with tasks := Function.update s.tasks i (some t) }

def start (i : Nat) (program : List (Instr L)) : Option (System L) :=
  match s.tasks i with
  | none => some (s.setTask i ⟨[], program, false⟩)
  | some _ => none

/-- Line up for a lock or for a place in the queue. -/
def ask (i : Nat) : Option (System L) :=
  match s.tasks i with
  | some ⟨held, .lock l mode :: rest, false⟩ =>
      some { s.setTask i ⟨held, .lock l mode :: rest, true⟩ with
        queues := Function.update s.queues l (s.queues l ++ [(i, mode)]) }
  | some ⟨held, .send :: rest, false⟩ =>
      some { s.setTask i ⟨held, .send :: rest, true⟩ with senders := s.senders ++ [i] }
  | _ => none

/-- Get what the task is the first to wait for. -/
def grant (capacity : Nat) (i : Nat) : Option (System L) :=
  match s.tasks i with
  | some ⟨held, .lock l mode :: rest, true⟩ =>
      if (s.queues l).head? = some (i, mode) ∧ (s.holders l).all (fun h => mode.compatible h.2) then
        some { s.setTask i ⟨held ++ [l], rest, false⟩ with
          holders := Function.update s.holders l ((i, mode) :: s.holders l)
          queues := Function.update s.queues l (s.queues l).tail }
      else none
  | some ⟨held, .send :: rest, true⟩ =>
      if s.senders.head? = some i ∧ s.commands.length < capacity then
        some { s.setTask i ⟨held, rest, false⟩ with
          senders := s.senders.tail
          commands := s.commands ++ [i]
          answered := Function.update s.answered i false }
      else none
  | _ => none

def unlock (i : Nat) : Option (System L) :=
  match s.tasks i with
  | some ⟨held, .unlock l :: rest, _⟩ =>
      some { s.setTask i ⟨held.erase l, rest, false⟩ with
        holders := Function.update s.holders l ((s.holders l).filter (·.1 ≠ i)) }
  | _ => none

def receive (i : Nat) : Option (System L) :=
  match s.tasks i with
  | some ⟨held, .answer :: rest, _⟩ => if s.answered i then some (s.setTask i ⟨held, rest, false⟩) else none
  | _ => none

/-- End a task before its program ends: it gives back its locks and leaves every line. -/
def stop (i : Nat) : Option (System L) :=
  match s.tasks i with
  | some _ => some { s.setTask i ⟨[], [], false⟩ with
      holders := fun l => (s.holders l).filter (·.1 ≠ i)
      queues := fun l => (s.queues l).filter (·.1 ≠ i)
      senders := s.senders.filter (· ≠ i) }
  | none => none

/-- The server answers the first `n` commands. -/
def serve (n : Nat) : System L :=
  { s with
    commands := s.commands.drop n
    answered := fun i => i ∈ s.commands.take n || s.answered i }

end System

inductive Action (L : Type) where
  | start (i : Nat) (program : List (Instr L))
  | ask (i : Nat)
  | grant (i : Nat)
  | unlock (i : Nat)
  | receive (i : Nat)
  | stop (i : Nat)
  | serve (n : Nat)

/-- The system after an action, when it is possible. -/
def step [DecidableEq L] (capacity : Nat) (s : System L) : Action L → Option (System L)
  | .start i program => s.start i program
  | .ask i => s.ask i
  | .grant i => s.grant capacity i
  | .unlock i => s.unlock i
  | .receive i => s.receive i
  | .stop i => s.stop i
  | .serve n => some (s.serve n)

/-! ## Waiting -/

/-- Who waits, and for whom. -/
inductive Party where
  | task (i : Nat)
  | server

/-- Whether one comes before another in a line. -/
def Ahead (i j : Nat) (line : List Nat) : Prop := ∃ front back, line = front ++ i :: back ∧ j ∈ front

/-- The first party waits for what the second one holds, is before it in line for, or has to do. -/
inductive Waits (capacity : Nat) (s : System L) : Party → Party → Prop where
  | holder {i j : Nat} {mode mode' : Mode} {l : L} (waits : (i, mode) ∈ s.queues l) (holds : (j, mode') ∈ s.holders l) :
      Waits capacity s (.task i) (.task j)
  | line {i j : Nat} {l : L} (ahead : Ahead i j ((s.queues l).map (·.1))) : Waits capacity s (.task i) (.task j)
  | full {i : Nat} (waits : i ∈ s.senders) (full : capacity ≤ s.commands.length) : Waits capacity s (.task i) .server
  | senders {i j : Nat} (ahead : Ahead i j s.senders) : Waits capacity s (.task i) (.task j)
  | answer {i : Nat} {t : Task L} {rest : List (Instr L)} (found : s.tasks i = some t) (next : t.rest = .answer :: rest)
      (unanswered : s.answered i = false) : Waits capacity s (.task i) .server
  /-- With nothing to do, the server waits for a command of anybody. -/
  | command {i : Nat} (nothing : s.commands = []) : Waits capacity s .server (.task i)

/-! ## Steps -/

/-- A step with everything that makes it possible. -/
inductive Took [DecidableEq L] (capacity : Nat) (s : System L) : Action L → System L → Prop where
  | start {i : Nat} {program : List (Instr L)} (fresh : s.tasks i = none) :
      Took capacity s (.start i program) (s.setTask i ⟨[], program, false⟩)
  | askLock {i : Nat} {held : List L} {l : L} {mode : Mode} {rest : List (Instr L)}
      (phase : s.tasks i = some ⟨held, .lock l mode :: rest, false⟩) :
      Took capacity s (.ask i) { s.setTask i ⟨held, .lock l mode :: rest, true⟩ with
        queues := Function.update s.queues l (s.queues l ++ [(i, mode)]) }
  | askSend {i : Nat} {held : List L} {rest : List (Instr L)} (phase : s.tasks i = some ⟨held, .send :: rest, false⟩) :
      Took capacity s (.ask i) { s.setTask i ⟨held, .send :: rest, true⟩ with senders := s.senders ++ [i] }
  | grantLock {i : Nat} {held : List L} {l : L} {mode : Mode} {rest : List (Instr L)} {line : List (Nat × Mode)}
      (phase : s.tasks i = some ⟨held, .lock l mode :: rest, true⟩) (first : s.queues l = (i, mode) :: line) :
      Took capacity s (.grant i) { s.setTask i ⟨held ++ [l], rest, false⟩ with
        holders := Function.update s.holders l ((i, mode) :: s.holders l)
        queues := Function.update s.queues l line }
  | grantSend {i : Nat} {held : List L} {rest : List (Instr L)} {line : List Nat}
      (phase : s.tasks i = some ⟨held, .send :: rest, true⟩) (first : s.senders = i :: line) :
      Took capacity s (.grant i) { s.setTask i ⟨held, rest, false⟩ with
        senders := line
        commands := s.commands ++ [i]
        answered := Function.update s.answered i false }
  | unlock {i : Nat} {held : List L} {l : L} {rest : List (Instr L)} {asked : Bool}
      (phase : s.tasks i = some ⟨held, .unlock l :: rest, asked⟩) :
      Took capacity s (.unlock i) { s.setTask i ⟨held.erase l, rest, false⟩ with
        holders := Function.update s.holders l ((s.holders l).filter (·.1 ≠ i)) }
  | receive {i : Nat} {held : List L} {rest : List (Instr L)} {asked : Bool}
      (phase : s.tasks i = some ⟨held, .answer :: rest, asked⟩) (answered : s.answered i = true) :
      Took capacity s (.receive i) (s.setTask i ⟨held, rest, false⟩)
  | stop {i : Nat} : Took capacity s (.stop i) { s.setTask i ⟨[], [], false⟩ with
      holders := fun l => (s.holders l).filter (·.1 ≠ i)
      queues := fun l => (s.queues l).filter (·.1 ≠ i)
      senders := s.senders.filter (· ≠ i) }
  | serve (n : Nat) : Took capacity s (.serve n) (s.serve n)

section Steps

variable [DecidableEq L] {rank : L → Nat} {capacity : Nat} {s s' : System L} {a : Action L}

theorem took (taken : step capacity s a = some s') : Took capacity s a s' := by
  cases a with
  | start i program =>
      simp only [step, System.start] at taken
      split at taken
      · next fresh => cases taken; exact .start fresh
      · cases taken
  | ask i =>
      simp only [step, System.ask] at taken
      split at taken
      · next phase => cases taken; exact .askLock phase
      · next phase => cases taken; exact .askSend phase
      · cases taken
  | grant i =>
      simp only [step, System.grant] at taken
      split at taken
      · next phase =>
          split at taken
          · next first =>
              cases taken
              obtain ⟨line, first⟩ := List.head?_eq_some_iff.mp first.1
              rw [first]
              exact .grantLock phase first
          · cases taken
      · next phase =>
          split at taken
          · next first =>
              cases taken
              obtain ⟨line, first⟩ := List.head?_eq_some_iff.mp first.1
              rw [first]
              exact .grantSend phase first
          · cases taken
      · cases taken
  | unlock i =>
      simp only [step, System.unlock] at taken
      split at taken
      · next phase => cases taken; exact .unlock phase
      · cases taken
  | receive i =>
      simp only [step, System.receive] at taken
      split at taken
      · next phase =>
          split at taken
          · next answered => cases taken; exact .receive phase answered
          · cases taken
      · cases taken
  | stop i =>
      simp only [step, System.stop] at taken
      split at taken
      · cases taken; exact .stop
      · cases taken
  | serve n => cases taken; exact .serve n

/-- Tasks hold and wait for what the tables say, take their locks in order, and have their
    commands in the queue until they are answered. -/
structure Sound (rank : L → Nat) (s : System L) : Prop where
  ordered : ∀ i t, s.tasks i = some t → Ordered rank t.held t.rest
  paired : ∀ i t, s.tasks i = some t → ∃ out, Paired out t.rest false ∧ (out = true → i ∈ s.commands ∨ s.answered i = true)
  holds : ∀ l j mode, (j, mode) ∈ s.holders l → ∃ t, s.tasks j = some t ∧ l ∈ t.held
  queued : ∀ l j mode, (j, mode) ∈ s.queues l → ∃ held rest, s.tasks j = some ⟨held, .lock l mode :: rest, true⟩
  sending : ∀ j ∈ s.senders, ∃ held rest, s.tasks j = some ⟨held, .send :: rest, true⟩
  lined : ∀ j held l mode rest, s.tasks j = some ⟨held, .lock l mode :: rest, true⟩ → (j, mode) ∈ s.queues l
  linedUp : ∀ j held rest, s.tasks j = some ⟨held, .send :: rest, true⟩ → j ∈ s.senders
  line : ∀ l, ((s.queues l).map (·.1)).Nodup
  senders : s.senders.Nodup

theorem idle_sound : Sound rank (System.idle : System L) where
  ordered _ _ found := nomatch found
  paired _ _ found := nomatch found
  holds _ _ _ inside := (List.not_mem_nil inside).elim
  queued _ _ _ inside := (List.not_mem_nil inside).elim
  sending _ inside := (List.not_mem_nil inside).elim
  lined _ _ _ _ _ found := nomatch found
  linedUp _ _ _ found := nomatch found
  line _ := List.nodup_nil
  senders := List.nodup_nil

/-- One task moves on, and the tables change for it alone. -/
theorem Sound.update (inv : Sound rank s) {i : Nat} {t : Task L} (tasks : s'.tasks = Function.update s.tasks i (some t))
    (ordered : Ordered rank t.held t.rest)
    (paired : ∃ out, Paired out t.rest false ∧ (out = true → i ∈ s'.commands ∨ s'.answered i = true))
    (holds : ∀ l mode, (i, mode) ∈ s'.holders l → l ∈ t.held)
    (queued : ∀ l mode, (i, mode) ∈ s'.queues l ↔ ∃ held rest, t = ⟨held, .lock l mode :: rest, true⟩)
    (sending : i ∈ s'.senders ↔ ∃ held rest, t = ⟨held, .send :: rest, true⟩)
    (others : ∀ j, j ≠ i → (j ∈ s.commands ∨ s.answered j = true → j ∈ s'.commands ∨ s'.answered j = true) ∧
      (∀ l mode, (j, mode) ∈ s'.holders l → (j, mode) ∈ s.holders l) ∧
      (∀ l mode, (j, mode) ∈ s'.queues l ↔ (j, mode) ∈ s.queues l) ∧ (j ∈ s'.senders ↔ j ∈ s.senders))
    (line : ∀ l, ((s'.queues l).map (·.1)).Nodup) (senders : s'.senders.Nodup) : Sound rank s' := by
  have own : s'.tasks i = some t := by rw [tasks, Function.update_self]
  have same : ∀ j, j ≠ i → s'.tasks j = s.tasks j := fun j other => by rw [tasks, Function.update_of_ne other]
  constructor
  case ordered =>
    intro j t' found
    by_cases mine : j = i
    · cases own.symm.trans (mine ▸ found)
      exact ordered
    · exact inv.ordered j t' ((same j mine).symm.trans found)
  case paired =>
    intro j t' found
    by_cases mine : j = i
    · subst mine
      cases own.symm.trans found
      exact paired
    · obtain ⟨out, alternate, awaited⟩ := inv.paired j t' ((same j mine).symm.trans found)
      exact ⟨out, alternate, fun waits => (others j mine).1 (awaited waits)⟩
  case holds =>
    intro l j mode inside
    by_cases mine : j = i
    · subst mine
      exact ⟨t, own, holds l mode inside⟩
    · rw [same j mine]
      exact inv.holds l j mode ((others j mine).2.1 l mode inside)
  case queued =>
    intro l j mode inside
    by_cases mine : j = i
    · subst mine
      obtain ⟨held, rest, rfl⟩ := (queued l mode).mp inside
      exact ⟨held, rest, own⟩
    · rw [same j mine]
      exact inv.queued l j mode (((others j mine).2.2.1 l mode).mp inside)
  case sending =>
    intro j inside
    by_cases mine : j = i
    · subst mine
      obtain ⟨held, rest, rfl⟩ := sending.mp inside
      exact ⟨held, rest, own⟩
    · rw [same j mine]
      exact inv.sending j ((others j mine).2.2.2.mp inside)
  case lined =>
    intro j held l mode rest found
    by_cases mine : j = i
    · subst mine
      exact (queued l mode).mpr ⟨held, rest, Option.some.inj (own.symm.trans found)⟩
    · exact ((others j mine).2.2.1 l mode).mpr (inv.lined j held l mode rest ((same j mine).symm.trans found))
  case linedUp =>
    intro j held rest found
    by_cases mine : j = i
    · subst mine
      exact sending.mpr ⟨held, rest, Option.some.inj (own.symm.trans found)⟩
    · exact (others j mine).2.2.2.mpr (inv.linedUp j held rest ((same j mine).symm.trans found))
  case line => exact line
  case senders => exact senders

/-- A task that does not wait for a lock stands in no line. -/
theorem Sound.unqueued (inv : Sound rank s) {i : Nat} {t : Task L} (phase : s.tasks i = some t)
    (calm : ∀ l mode rest, t.rest = .lock l mode :: rest → t.asked = false) (l : L) (mode : Mode) :
    (i, mode) ∉ s.queues l := by
  intro inside
  obtain ⟨held, rest, found⟩ := inv.queued l i mode inside
  cases phase.symm.trans found
  exact absurd (calm l mode rest rfl) (by simp)

theorem Sound.unsent (inv : Sound rank s) {i : Nat} {t : Task L} (phase : s.tasks i = some t)
    (calm : ∀ rest, t.rest = .send :: rest → t.asked = false) : i ∉ s.senders := by
  intro inside
  obtain ⟨held, rest, found⟩ := inv.sending i inside
  cases phase.symm.trans found
  exact absurd (calm rest rfl) (by simp)

theorem Sound.mine (inv : Sound rank s) {i : Nat} {t : Task L} (phase : s.tasks i = some t) {l : L} {mode : Mode}
    (inside : (i, mode) ∈ s.holders l) : l ∈ t.held := by
  obtain ⟨t', found, holds⟩ := inv.holds l i mode inside
  cases phase.symm.trans found
  exact holds

theorem Sound.start (inv : Sound rank s) {i : Nat} {program : List (Instr L)} (fresh : s.tasks i = none)
    (closed : Closed rank program) : Sound rank (s.setTask i ⟨[], program, false⟩) := by
  have unqueued : ∀ l mode, (i, mode) ∉ s.queues l := by
    intro l mode inside
    obtain ⟨_, _, found⟩ := inv.queued l i mode inside
    cases fresh.symm.trans found
  have unsent : i ∉ s.senders := by
    intro inside
    obtain ⟨_, _, found⟩ := inv.sending i inside
    cases fresh.symm.trans found
  refine inv.update rfl closed.ordered ⟨false, closed.paired, fun same => nomatch same⟩ (fun l mode inside => ?_)
    (fun l mode => iff_of_false (unqueued l mode) fun ⟨_, _, same⟩ => nomatch same)
    (iff_of_false unsent fun ⟨_, _, same⟩ => nomatch same)
    (fun j _ => ⟨id, fun _ _ => id, fun _ _ => .rfl, .rfl⟩) inv.line inv.senders
  obtain ⟨t, found, _⟩ := inv.holds l i mode inside
  cases fresh.symm.trans found

theorem Sound.askLock (inv : Sound rank s) {i : Nat} {held : List L} {l : L} {mode : Mode} {rest : List (Instr L)}
    (phase : s.tasks i = some ⟨held, .lock l mode :: rest, false⟩) :
    Sound rank { s.setTask i ⟨held, .lock l mode :: rest, true⟩ with
      queues := Function.update s.queues l (s.queues l ++ [(i, mode)]) } := by
  have ordered := inv.ordered i _ phase
  have paired := inv.paired i _ phase
  have unqueued := inv.unqueued phase (fun _ _ _ _ => rfl)
  have unsent := inv.unsent phase (fun _ _ => rfl)
  refine inv.update rfl ordered paired (fun k mode' => inv.mine phase) (fun k mode' => ?_)
    (iff_of_false unsent fun ⟨_, _, same⟩ => nomatch same)
    (fun j other => ⟨id, fun _ _ => id, fun k mode' => ?_, .rfl⟩) (fun k => ?_) inv.senders
  · simp only [Function.update_apply]
    split
    · next same =>
        subst same
        constructor
        · intro inside
          rcases List.mem_append.mp inside with before | now
          · exact absurd before (unqueued k mode')
          · cases List.mem_singleton.mp now
            exact ⟨held, rest, rfl⟩
        · rintro ⟨_, _, same⟩
          cases same
          exact List.mem_append_right _ List.mem_cons_self
    · next other =>
        refine iff_of_false (unqueued k mode') ?_
        rintro ⟨_, _, same⟩
        cases same
        exact other rfl
  · simp only [Function.update_apply]
    split
    · next same =>
        subst same
        simp [other]
    · rfl
  · simp only [Function.update_apply]
    split
    · rw [List.map_append]
      refine (inv.line l).append (List.nodup_singleton _) ?_
      simpa using unqueued l
    · exact inv.line k

theorem Sound.askSend (inv : Sound rank s) {i : Nat} {held : List L} {rest : List (Instr L)}
    (phase : s.tasks i = some ⟨held, .send :: rest, false⟩) :
    Sound rank { s.setTask i ⟨held, .send :: rest, true⟩ with senders := s.senders ++ [i] } := by
  have ordered := inv.ordered i _ phase
  have paired := inv.paired i _ phase
  have unqueued := inv.unqueued phase (fun _ _ _ _ => rfl)
  have unsent := inv.unsent phase (fun _ _ => rfl)
  refine inv.update rfl ordered paired (fun k mode' => inv.mine phase)
    (fun k mode' => iff_of_false (unqueued k mode') fun ⟨_, _, same⟩ => nomatch same)
    (iff_of_true (List.mem_append_right _ List.mem_cons_self) ⟨held, rest, rfl⟩)
    (fun j other => ⟨id, fun _ _ => id, fun _ _ => .rfl, by simp [other]⟩) inv.line ?_
  exact inv.senders.append (List.nodup_singleton i) (by simpa using unsent)

theorem Sound.grantLock (inv : Sound rank s) {i : Nat} {held : List L} {l : L} {mode : Mode} {rest : List (Instr L)}
    {line : List (Nat × Mode)} (phase : s.tasks i = some ⟨held, .lock l mode :: rest, true⟩)
    (first : s.queues l = (i, mode) :: line) : Sound rank { s.setTask i ⟨held ++ [l], rest, false⟩ with
      holders := Function.update s.holders l ((i, mode) :: s.holders l)
      queues := Function.update s.queues l line } := by
  have ordered := (inv.ordered i _ phase).2
  have paired := inv.paired i _ phase
  have nodup := inv.line l
  rw [first, List.map_cons, List.nodup_cons] at nodup
  have unsent : i ∉ s.senders := inv.unsent phase (fun _ same => nomatch same)
  have gone : ∀ k mode', (i, mode') ∉ Function.update s.queues l line k := by
    intro k mode' inside
    rw [Function.update_apply] at inside
    split at inside
    · exact nodup.1 (List.mem_map_of_mem (f := (·.1)) inside)
    · next other =>
        obtain ⟨_, _, found⟩ := inv.queued k i mode' inside
        cases phase.symm.trans found
        exact other rfl
  refine inv.update rfl ordered paired (fun k mode' inside => ?_)
    (fun k mode' => iff_of_false (gone k mode') fun ⟨_, _, same⟩ => nomatch same)
    (iff_of_false unsent fun ⟨_, _, same⟩ => nomatch same)
    (fun j other => ⟨id, fun k mode' inside => ?_, fun k mode' => ?_, .rfl⟩) (fun k => ?_) inv.senders
  · simp only [Function.update_apply] at inside
    split at inside
    · next same => exact List.mem_append_right _ (List.mem_singleton.mpr same)
    · exact List.mem_append_left _ (inv.mine phase inside)
  · simp only [Function.update_apply] at inside
    split at inside
    · next same =>
        subst same
        simpa [other] using inside
    · exact inside
  · simp only [Function.update_apply]
    split
    · next same =>
        subst same
        simp [first, other]
    · rfl
  · simp only [Function.update_apply]
    split
    · exact nodup.2
    · exact inv.line k

theorem Sound.grantSend (inv : Sound rank s) {i : Nat} {held : List L} {rest : List (Instr L)} {line : List Nat}
    (phase : s.tasks i = some ⟨held, .send :: rest, true⟩) (first : s.senders = i :: line) :
    Sound rank { s.setTask i ⟨held, rest, false⟩ with
      senders := line, commands := s.commands ++ [i], answered := Function.update s.answered i false } := by
  have ordered := inv.ordered i _ phase
  obtain ⟨_, ⟨_, paired⟩, _⟩ := inv.paired i _ phase
  have nodup := inv.senders
  rw [first, List.nodup_cons] at nodup
  have unqueued := inv.unqueued phase (fun _ _ _ same => nomatch same)
  refine inv.update rfl ordered ⟨true, paired, fun _ => .inl (List.mem_append_right _ List.mem_cons_self)⟩
    (fun k mode => inv.mine phase) (fun k mode => iff_of_false (unqueued k mode) fun ⟨_, _, same⟩ => nomatch same)
    (iff_of_false nodup.1 fun ⟨_, _, same⟩ => nomatch same)
    (fun j other => ⟨fun awaited => ?_, fun _ _ => id, fun _ _ => .rfl, by simp [first, other]⟩) inv.line nodup.2
  refine awaited.imp (List.mem_append_left _) fun answered => ?_
  exact (Function.update_of_ne other ..).trans answered

theorem Sound.unlock (inv : Sound rank s) {i : Nat} {held : List L} {l : L} {rest : List (Instr L)} {asked : Bool}
    (phase : s.tasks i = some ⟨held, .unlock l :: rest, asked⟩) : Sound rank { s.setTask i ⟨held.erase l, rest, false⟩ with
      holders := Function.update s.holders l ((s.holders l).filter (·.1 ≠ i)) } := by
  have ordered := inv.ordered i _ phase
  have paired := inv.paired i _ phase
  have unqueued := inv.unqueued phase (fun _ _ _ same => nomatch same)
  have unsent := inv.unsent phase (fun _ same => nomatch same)
  refine inv.update rfl ordered paired (fun k mode inside => ?_)
    (fun k mode => iff_of_false (unqueued k mode) fun ⟨_, _, same⟩ => nomatch same)
    (iff_of_false unsent fun ⟨_, _, same⟩ => nomatch same)
    (fun j other => ⟨id, fun k mode inside => ?_, fun _ _ => .rfl, .rfl⟩) inv.line inv.senders
  · simp only [Function.update_apply] at inside
    split at inside
    · simp at inside
    · next other => exact (List.mem_erase_of_ne other).mpr (inv.mine phase inside)
  · simp only [Function.update_apply] at inside
    split at inside
    · next same => exact same ▸ (List.mem_filter.mp inside).1
    · exact inside

theorem Sound.receive (inv : Sound rank s) {i : Nat} {held : List L} {rest : List (Instr L)} {asked : Bool}
    (phase : s.tasks i = some ⟨held, .answer :: rest, asked⟩) : Sound rank (s.setTask i ⟨held, rest, false⟩) := by
  have ordered := inv.ordered i _ phase
  obtain ⟨_, ⟨_, paired⟩, _⟩ := inv.paired i _ phase
  have unqueued := inv.unqueued phase (fun _ _ _ same => nomatch same)
  have unsent := inv.unsent phase (fun _ same => nomatch same)
  exact inv.update rfl ordered ⟨false, paired, fun same => nomatch same⟩ (fun k mode => inv.mine phase)
    (fun k mode => iff_of_false (unqueued k mode) fun ⟨_, _, same⟩ => nomatch same)
    (iff_of_false unsent fun ⟨_, _, same⟩ => nomatch same)
    (fun j _ => ⟨id, fun _ _ => id, fun _ _ => .rfl, .rfl⟩) inv.line inv.senders

theorem Sound.stop (inv : Sound rank s) (i : Nat) : Sound rank { s.setTask i ⟨[], [], false⟩ with
      holders := fun l => (s.holders l).filter (·.1 ≠ i)
      queues := fun l => (s.queues l).filter (·.1 ≠ i)
      senders := s.senders.filter (· ≠ i) } := by
  refine inv.update rfl trivial ⟨false, rfl, fun same => nomatch same⟩ (fun k mode inside => ?_)
    (fun k mode => iff_of_false ?_ fun ⟨_, _, same⟩ => nomatch same)
    (iff_of_false ?_ fun ⟨_, _, same⟩ => nomatch same)
    (fun j other => ⟨id, fun _ _ inside => (List.mem_filter.mp inside).1, fun k mode => ?_, ?_⟩)
    (fun k => (List.filter_sublist.map _).nodup (inv.line k)) (inv.senders.filter _)
  · simp at inside
  · simp
  · simp
  · simp [other]
  · simp [other]

theorem Sound.serve (inv : Sound rank s) (n : Nat) : Sound rank (s.serve n) := by
  refine ⟨inv.ordered, fun i t found => ?_, inv.holds, inv.queued, inv.sending, inv.lined, inv.linedUp, inv.line,
    inv.senders⟩
  obtain ⟨out, paired, awaited⟩ := inv.paired i t found
  refine ⟨out, paired, fun waits => ?_⟩
  simp only [System.serve, Bool.or_eq_true, decide_eq_true_eq]
  rcases awaited waits with queued | answered
  · rw [← List.take_append_drop n s.commands, List.mem_append] at queued
    exact queued.symm.imp_right .inl
  · exact .inr (.inr answered)

/-- Every step keeps it, as long as the programs started are closed. -/
theorem Sound.took (inv : Sound rank s) (took : Took capacity s a s')
    (closed : ∀ i program, a = .start i program → Closed rank program) : Sound rank s' := by
  cases took with
  | @start i program fresh => exact inv.start fresh (closed i program rfl)
  | askLock phase => exact inv.askLock phase
  | askSend phase => exact inv.askSend phase
  | grantLock phase first => exact inv.grantLock phase first
  | grantSend phase first => exact inv.grantSend phase first
  | unlock phase => exact inv.unlock phase
  | receive phase => exact inv.receive phase
  | @stop i => exact inv.stop i
  | serve n => exact inv.serve n

/-! ## No circle -/

/-- Where a party waits: for which lock, and at which place in line. Behind all locks comes the server. -/
def key (rank : L → Nat) (s : System L) : Party → WithTop Nat ×ₗ Natᵒᵈ
  | .task i =>
      match s.tasks i with
      | some ⟨_, .lock l _ :: _, _⟩ => toLex (WithTop.some (rank l), .toDual (((s.queues l).map (·.1)).idxOf i))
      | some ⟨_, .send :: _, _⟩ => toLex (⊤, .toDual (s.senders.idxOf i))
      | _ => toLex (⊤, .toDual 0)
  | .server => toLex (⊤, .toDual 0)

theorem Ahead.idxOf {i j : Nat} {line : List Nat} (ahead : Ahead i j line) (nodup : line.Nodup) :
    line.idxOf j < line.idxOf i := by
  obtain ⟨front, back, rfl, before⟩ := ahead
  have absent : i ∉ front := fun inside => (List.nodup_append.mp nodup).2.2 i inside i List.mem_cons_self rfl
  rw [List.idxOf_append_of_mem before, List.idxOf_append_of_notMem absent, List.idxOf_cons_self]
  exact (List.idxOf_lt_length_of_mem before).trans_le (Nat.le_add_right ..)

/-- Who is in line for a lock, or for the server, is asking for it. -/
theorem Ahead.mem {i j : Nat} {line : List Nat} (ahead : Ahead i j line) : i ∈ line ∧ j ∈ line := by
  obtain ⟨front, back, rfl, before⟩ := ahead
  exact ⟨List.mem_append_right _ List.mem_cons_self, List.mem_append_left _ before⟩

/-- Who is in line is the first, or somebody is ahead. -/
theorem Ahead.of_mem {i : Nat} {line : List Nat} (inside : i ∈ line) : line.head? = some i ∨ ∃ j, Ahead i j line := by
  obtain ⟨front, back, rfl⟩ := List.append_of_mem inside
  cases front with
  | nil => exact .inl rfl
  | cons j front => exact .inr ⟨j, j :: front, back, rfl, List.mem_cons_self⟩

theorem Sound.key_lock (inv : Sound rank s) {i : Nat} {l : L} (waits : i ∈ (s.queues l).map (·.1)) :
    key rank s (.task i) = toLex (WithTop.some (rank l), .toDual (((s.queues l).map (·.1)).idxOf i)) := by
  obtain ⟨⟨_, mode⟩, inside, rfl⟩ := List.mem_map.mp waits
  obtain ⟨held, rest, found⟩ := inv.queued l _ mode inside
  simp only [key, found]

theorem Sound.key_send (inv : Sound rank s) {i : Nat} (waits : i ∈ s.senders) :
    key rank s (.task i) = toLex (⊤, .toDual (s.senders.idxOf i)) := by
  obtain ⟨held, rest, found⟩ := inv.sending i waits
  simp only [key, found]

/-- A task that holds a lock waits above it. -/
theorem Sound.above (inv : Sound rank s) {j : Nat} {l : L} {mode : Mode} (holds : (j, mode) ∈ s.holders l) {c : Party}
    (next : Waits capacity s (.task j) c) : WithTop.some (rank l) < (ofLex (key rank s (.task j))).1 := by
  have below : ∀ k, j ∈ (s.queues k).map (·.1) → WithTop.some (rank l) < (ofLex (key rank s (.task j))).1 := by
    intro k waits
    rw [inv.key_lock waits]
    obtain ⟨⟨_, mode⟩, inside, rfl⟩ := List.mem_map.mp waits
    obtain ⟨held, rest, found⟩ := inv.queued k _ mode inside
    exact WithTop.coe_lt_coe.mpr ((inv.ordered _ _ found).1 l (inv.mine found holds))
  cases next with
  | holder waits => exact below _ (List.mem_map_of_mem (f := (·.1)) waits)
  | line ahead => exact below _ ahead.mem.1
  | full waits =>
      rw [inv.key_send waits]
      exact WithTop.coe_lt_top _
  | senders ahead =>
      rw [inv.key_send ahead.mem.1]
      exact WithTop.coe_lt_top _
  | @answer _ t rest found next =>
      obtain ⟨held, rest, asked⟩ := t
      subst next
      simp only [key, found]
      exact WithTop.coe_lt_top _

/-- Whom a party waits for has something to do if it is the server. -/
theorem Sound.busy (inv : Sound rank s) (places : 0 < capacity) {z : Party} (into : Waits capacity s z .server) :
    s.commands ≠ [] := by
  intro nothing
  cases into with
  | full _ full =>
      rw [nothing] at full
      exact Nat.lt_irrefl 0 (places.trans_le full)
  | @answer i t rest found next unanswered =>
      obtain ⟨out, paired, awaited⟩ := inv.paired i t found
      rw [next] at paired
      rcases awaited paired.1 with queued | answered
      · rw [nothing] at queued
        cases queued
      · rw [unanswered] at answered
        cases answered

/-- Nobody waits in a circle. -/
theorem Sound.acyclic (inv : Sound rank s) (places : 0 < capacity) : Acyclic (Waits capacity s) := by
  apply acyclic_of_key (key rank s)
  intro z a b c into edge next
  rw [Prod.Lex.lt_iff]
  cases edge with
  | holder waits holds =>
      left
      rw [inv.key_lock (List.mem_map_of_mem (f := (·.1)) waits)]
      exact inv.above holds next
  | @line i j l ahead =>
      rw [inv.key_lock ahead.mem.1, inv.key_lock ahead.mem.2]
      exact .inr ⟨rfl, OrderDual.toDual_lt_toDual.mpr (ahead.idxOf (inv.line l))⟩
  | senders ahead =>
      rw [inv.key_send ahead.mem.1, inv.key_send ahead.mem.2]
      exact .inr ⟨rfl, OrderDual.toDual_lt_toDual.mpr (ahead.idxOf inv.senders)⟩
  | full waits full =>
      cases next with
      | command nothing => exact absurd nothing (inv.busy places (.full waits full))
  | answer found phase unanswered =>
      cases next with
      | command nothing => exact absurd nothing (inv.busy places (.answer found phase unanswered))
  | command nothing => exact absurd nothing (inv.busy places into)

/-- The first in line asks in the mode that its program names. -/
theorem Sound.first (inv : Sound rank s) {i : Nat} {held : List L} {l : L} {mode : Mode} {rest : List (Instr L)}
    (found : s.tasks i = some ⟨held, .lock l mode :: rest, true⟩) (first : ((s.queues l).map (·.1)).head? = some i) :
    ∃ line, s.queues l = (i, mode) :: line := by
  cases line : s.queues l with
  | nil => simp [line] at first
  | cons entry line' =>
      obtain ⟨j, mode'⟩ := entry
      simp only [line, List.map_cons, List.head?_cons, Option.some.injEq] at first
      subst first
      obtain ⟨_, _, found'⟩ := inv.queued l j mode' (by rw [line]; exact List.mem_cons_self)
      cases found.symm.trans found'
      exact ⟨line', rfl⟩

/-- A task with more to do can move by itself, or waits for somebody. -/
theorem Sound.moves_or_waits (inv : Sound rank s) {i : Nat} {t : Task L} (found : s.tasks i = some t)
    (more : t.rest ≠ []) : (∃ a ∈ [Action.ask i, .grant i, .unlock i, .receive i], (step capacity s a).isSome) ∨
      ∃ p, Waits capacity s (.task i) p := by
  obtain ⟨held, rest, asked⟩ := t
  cases rest with
  | nil => exact absurd rfl more
  | cons instr rest =>
      cases instr with
      | unlock l => exact .inl ⟨.unlock i, by simp, by simp [step, System.unlock, found]⟩
      | answer =>
          by_cases answered : s.answered i
          · exact .inl ⟨.receive i, by simp, by simp [step, System.receive, found, answered]⟩
          · exact .inr ⟨_, .answer found rfl (by simpa using answered)⟩
      | lock l mode =>
          cases asked with
          | false => exact .inl ⟨.ask i, by simp, by simp [step, System.ask, found]⟩
          | true =>
              have inside := inv.lined i held l mode rest found
              rcases Ahead.of_mem (List.mem_map_of_mem (f := (·.1)) inside) with first | ⟨j, ahead⟩
              · obtain ⟨line, first⟩ := inv.first found first
                by_cases free : (s.holders l).all (fun h => mode.compatible h.2) = true
                · exact .inl ⟨.grant i, by simp, by simp only [step, System.grant, found, first, List.head?_cons, free]; rfl⟩
                · obtain ⟨h, holds, _⟩ := List.all_eq_false.mp (Bool.eq_false_iff.mpr free)
                  exact .inr ⟨_, .holder inside holds⟩
              · exact .inr ⟨_, .line ahead⟩
      | send =>
          cases asked with
          | false => exact .inl ⟨.ask i, by simp, by simp [step, System.ask, found]⟩
          | true =>
              rcases Ahead.of_mem (inv.linedUp i held rest found) with first | ⟨j, ahead⟩
              · by_cases place : s.commands.length < capacity
                · exact .inl ⟨.grant i, by simp, by simp [step, System.grant, found, first, place]⟩
                · exact .inr ⟨_, .full (inv.linedUp i held rest found) (not_lt.mp place)⟩
              · exact .inr ⟨_, .senders ahead⟩

end Steps

end Lib.Locking
