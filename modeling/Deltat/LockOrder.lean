import Deltat.Checks
import Deltat.Lib.Locking
import Deltat.Tenant

/-! # No operation deadlocks

What each operation of the engine locks, and when it waits for the log writer. Which resources
it finds in the store is a parameter. The log writer takes no lock.
-/

namespace Deltat

open Lib Locking Machine Relation

/-- What an operation can lock. -/
inductive Lock where
  | topology
  | compact
  | resource (h : Handle)
  deriving DecidableEq

/-- The order in which locks are taken: resources by their ids, after the other two. -/
def Lock.rank : Lock → Nat
  | topology | compact => 0
  | resource h => h.1.val + 1

abbrev LockProgram := List (Instr Lock)

namespace LockProgram

/-- Look at a resource under its read guard. -/
def read (h : Handle) : LockProgram := [.lock (.resource h) .shared, .unlock (.resource h)]

def write (h : Handle) : LockProgram := [.lock (.resource h) .exclusive]

def walAppend : LockProgram := [.send, .answer]

/-! ## Reads -/

/-- One ancestor after the other. -/
def collectInheritedRules (chain : List Handle) : LockProgram := chain.flatMap read

def computeAvailability (chain : List Handle) (resource : Handle) : LockProgram :=
  collectInheritedRules chain ++ read resource

def computeMultiAvailability (resources : List (List Handle × Handle)) : LockProgram :=
  resources.flatMap fun r => computeAvailability r.1 r.2

def getAvailabilityMulti (resources : List (List Handle × Handle)) : LockProgram :=
  resources.flatMap fun r => computeAvailability r.1 r.2

def resourceInfo (resource : Handle) : LockProgram := read resource

def listResources (resources : List Handle) : LockProgram := resources.flatMap resourceInfo

def getRules (resource : Handle) : LockProgram := read resource

def getBookings (resource : Handle) : LockProgram := read resource

def getHolds (resource : Handle) : LockProgram := read resource

def getBookingsMulti (resources : List Handle) : LockProgram := resources.flatMap getBookings

def getHoldsMulti (resources : List Handle) : LockProgram := resources.flatMap getHolds

/-! ## Writes -/

/-- Wait for the flush under the write guard, which goes with the end of the operation. -/
def persistAndApply (resource : Handle) : LockProgram := walAppend ++ [.unlock (.resource resource)]

/-- Queue the records under the guards, give them back, and wait for the flush. -/
def persistEarly (resources : List Handle) : LockProgram :=
  [.send] ++ (resources.map Lock.resource).map .unlock ++ [.answer]

/-- The parent's availability, where the resource has a parent and the rule opens time. -/
def checkParentCoverage : Option (List Handle × Handle) → LockProgram
  | some (chain, parent) => computeAvailability chain parent
  | none => []

def addRule (parent : Option (List Handle × Handle)) (resource : Handle) : LockProgram :=
  checkParentCoverage parent ++ write resource ++ persistAndApply resource

def batchAddRules (rules : List (Option (List Handle × Handle) × Handle)) : LockProgram :=
  rules.flatMap fun r => addRule r.1 r.2

def updateRule (parent : Option (List Handle × Handle)) (resource : Handle) : LockProgram :=
  checkParentCoverage parent ++ write resource ++ persistAndApply resource

def resolveEntityWrite (resource : Handle) : LockProgram := write resource

def removeRule (resource : Handle) : LockProgram := resolveEntityWrite resource ++ persistAndApply resource

/-- A release and an expiry. -/
def removeHold (resource : Handle) : LockProgram := resolveEntityWrite resource ++ persistAndApply resource

def cancelBooking (resource : Handle) : LockProgram := resolveEntityWrite resource ++ persistAndApply resource

def updateResource (resource : Handle) : LockProgram := write resource ++ persistAndApply resource

def placeHold (chain : List Handle) (resource : Handle) : LockProgram :=
  collectInheritedRules chain ++ write resource ++ persistEarly [resource]

def confirmBooking (chain : List Handle) (resource : Handle) : LockProgram :=
  collectInheritedRules chain ++ write resource ++ persistEarly [resource]

/-- The resources as they are found, each once, in the order of their ids. -/
def targets (resourceIds : List Ulid) (found : Ulid → Nat) : List Handle :=
  (Engine.ascending resourceIds).map fun r => (r, found r)

def lockResources (resourceIds : List Ulid) (found : Ulid → Nat) : LockProgram :=
  ((targets resourceIds found).map Lock.resource).map (.lock · .exclusive)

def admitBatch (chains : List (List Handle)) (resourceIds : List Ulid) (found : Ulid → Nat) : LockProgram :=
  chains.flatMap collectInheritedRules ++ lockResources resourceIds found

def batchPlaceHolds (chains : List (List Handle)) (resourceIds : List Ulid) (found : Ulid → Nat) : LockProgram :=
  admitBatch chains resourceIds found ++ persistEarly (targets resourceIds found)

def batchConfirmBookings (chains : List (List Handle)) (resourceIds : List Ulid) (found : Ulid → Nat) : LockProgram :=
  admitBatch chains resourceIds found ++ persistEarly (targets resourceIds found)

def commitHolds (resourceIds : List Ulid) (found : Ulid → Nat) : LockProgram :=
  lockResources resourceIds found ++ persistEarly (targets resourceIds found)

/-! ## The tree and the log -/

def createResource : LockProgram := [.lock .topology .exclusive] ++ walAppend ++ [.unlock .topology]

def batchCreateResources (count : Nat) : LockProgram := (List.replicate count createResource).flatten

/-- The read guard is given back before the record is queued. -/
def deleteResource (resource : Handle) : LockProgram :=
  [.lock .topology .exclusive] ++ read resource ++ walAppend ++ [.unlock .topology]

/-- Open the window, copy one resource after the other, and hand the copies over. -/
def compactWal (resources : List Handle) : LockProgram :=
  [.lock .compact .exclusive] ++ walAppend ++ resources.flatMap read ++ walAppend ++ [.unlock .compact]

def walAppendsSinceCompact : LockProgram := [.send, .answer]

/-- The operations of the engine. Any of them can end early, when a check refuses. -/
inductive Operation : LockProgram → Prop where
  | computeAvailability (chain : List Handle) (resource : Handle) : Operation (computeAvailability chain resource)
  | computeMultiAvailability (resources : List (List Handle × Handle)) : Operation (computeMultiAvailability resources)
  | getAvailabilityMulti (resources : List (List Handle × Handle)) : Operation (getAvailabilityMulti resources)
  | resourceInfo (resource : Handle) : Operation (resourceInfo resource)
  | listResources (resources : List Handle) : Operation (listResources resources)
  | getRules (resource : Handle) : Operation (getRules resource)
  | getBookings (resource : Handle) : Operation (getBookings resource)
  | getHolds (resource : Handle) : Operation (getHolds resource)
  | getBookingsMulti (resources : List Handle) : Operation (getBookingsMulti resources)
  | getHoldsMulti (resources : List Handle) : Operation (getHoldsMulti resources)
  | addRule (parent : Option (List Handle × Handle)) (resource : Handle) : Operation (addRule parent resource)
  | batchAddRules (rules : List (Option (List Handle × Handle) × Handle)) : Operation (batchAddRules rules)
  | updateRule (parent : Option (List Handle × Handle)) (resource : Handle) : Operation (updateRule parent resource)
  | removeRule (resource : Handle) : Operation (removeRule resource)
  | removeHold (resource : Handle) : Operation (removeHold resource)
  | cancelBooking (resource : Handle) : Operation (cancelBooking resource)
  | updateResource (resource : Handle) : Operation (updateResource resource)
  | placeHold (chain : List Handle) (resource : Handle) : Operation (placeHold chain resource)
  | confirmBooking (chain : List Handle) (resource : Handle) : Operation (confirmBooking chain resource)
  | batchPlaceHolds (chains : List (List Handle)) (resourceIds : List Ulid) (found : Ulid → Nat) :
      Operation (batchPlaceHolds chains resourceIds found)
  | batchConfirmBookings (chains : List (List Handle)) (resourceIds : List Ulid) (found : Ulid → Nat) :
      Operation (batchConfirmBookings chains resourceIds found)
  | commitHolds (resourceIds : List Ulid) (found : Ulid → Nat) : Operation (commitHolds resourceIds found)
  | createResource : Operation createResource
  | batchCreateResources (count : Nat) : Operation (batchCreateResources count)
  | deleteResource (resource : Handle) : Operation (deleteResource resource)
  | compactWal (resources : List Handle) : Operation (compactWal resources)
  | walAppendsSinceCompact : Operation walAppendsSinceCompact

/-! ## Every operation takes its locks in order -/

theorem read_closed (h : Handle) : Closed Lock.rank (read h) := by
  refine ⟨?_, ?_, ?_⟩ <;> simp [read, Locking.Ordered, after, Paired]

theorem collectInheritedRules_closed (chain : List Handle) : Closed Lock.rank (collectInheritedRules chain) :=
  .flatMap fun h _ => read_closed h

theorem computeAvailability_closed (chain : List Handle) (resource : Handle) :
    Closed Lock.rank (computeAvailability chain resource) :=
  (collectInheritedRules_closed chain).append (read_closed resource)

theorem checkParentCoverage_closed (parent : Option (List Handle × Handle)) :
    Closed Lock.rank (checkParentCoverage parent) := by
  cases parent with
  | none => exact .nil
  | some p => exact computeAvailability_closed p.1 p.2

theorem late_closed (resource : Handle) : Closed Lock.rank (write resource ++ persistAndApply resource) := by
  refine ⟨?_, ?_, ?_⟩ <;> simp [write, persistAndApply, walAppend, Locking.Ordered, after, Paired]

theorem addRule_closed (parent : Option (List Handle × Handle)) (resource : Handle) :
    Closed Lock.rank (addRule parent resource) := by
  rw [addRule, List.append_assoc]
  exact (checkParentCoverage_closed parent).append (late_closed resource)

/-- Locks taken in ascending order, records queued, locks given back and the flush waited for. -/
theorem early_closed {resources : List Handle} (rising : resources.Pairwise fun h h' => h.1 < h'.1) :
    Closed Lock.rank ((resources.map Lock.resource).map (.lock · .exclusive) ++ persistEarly resources) := by
  have sorted : (resources.map Lock.resource).Pairwise fun k l => k.rank < l.rank :=
    List.pairwise_map.mpr (rising.imp fun below => Nat.succ_lt_succ below)
  constructor
  case ordered =>
    refine ordered_append.mpr ⟨ordered_locks (fun _ inside => (List.not_mem_nil inside).elim) sorted, ?_⟩
    rw [persistEarly, ordered_append, ordered_append]
    exact ⟨⟨trivial, ordered_unlocks _⟩, trivial⟩
  case released =>
    simp only [persistEarly, after_append, after_locks, List.nil_append, after, after_unlocks]
  case paired =>
    have unlocks : Paired true (((resources.map Lock.resource).map .unlock) ++ [.answer]) false :=
      (paired_unlocks _).append ⟨rfl, rfl⟩
    rw [persistEarly, List.append_assoc]
    exact (paired_locks _).append ⟨rfl, unlocks⟩

theorem targets_rising (resourceIds : List Ulid) (found : Ulid → Nat) :
    (targets resourceIds found).Pairwise fun h h' => h.1 < h'.1 := by
  have sorted : (Engine.ascending resourceIds).Pairwise (· ≤ ·) := List.pairwise_insertionSort _ _
  rw [targets, List.pairwise_map]
  exact (sorted.and (Engine.ascending_nodup resourceIds)).imp fun both => lt_of_le_of_ne both.1 both.2

theorem placeHold_closed (chain : List Handle) (resource : Handle) : Closed Lock.rank (placeHold chain resource) := by
  rw [placeHold, List.append_assoc]
  exact (collectInheritedRules_closed chain).append (early_closed (List.pairwise_singleton ..))

theorem commitHolds_closed (resourceIds : List Ulid) (found : Ulid → Nat) :
    Closed Lock.rank (commitHolds resourceIds found) := early_closed (targets_rising resourceIds found)

theorem batchPlaceHolds_closed (chains : List (List Handle)) (resourceIds : List Ulid) (found : Ulid → Nat) :
    Closed Lock.rank (batchPlaceHolds chains resourceIds found) := by
  rw [batchPlaceHolds, admitBatch, List.append_assoc]
  exact (Closed.flatMap fun chain _ => collectInheritedRules_closed chain).append (commitHolds_closed resourceIds found)

theorem createResource_closed : Closed Lock.rank createResource := by
  refine ⟨?_, ?_, ?_⟩ <;> simp [createResource, walAppend, Locking.Ordered, after, Paired]

theorem deleteResource_closed (resource : Handle) : Closed Lock.rank (deleteResource resource) := by
  refine ⟨?_, ?_, ?_⟩ <;> simp [deleteResource, read, walAppend, Locking.Ordered, after, Paired, Lock.rank]

/-- Reading resources under the compaction's lock leaves it the only one held. -/
theorem reads_under_compact (resources : List Handle) : Locking.Ordered Lock.rank [.compact] (resources.flatMap read) ∧
    after [.compact] (resources.flatMap read) = [Lock.compact] ∧ Paired false (resources.flatMap read) false := by
  induction resources with
  | nil => exact ⟨trivial, rfl, rfl⟩
  | cons h rest ih => simpa [read, Locking.Ordered, after, Paired, Lock.rank] using ih

theorem compactWal_closed (resources : List Handle) : Closed Lock.rank (compactWal resources) := by
  obtain ⟨ordered, held, paired⟩ := reads_under_compact resources
  constructor
  case ordered => simp [compactWal, walAppend, ordered_append, Locking.Ordered, ordered]
  case released => simp [compactWal, walAppend, after_append, after, held]
  case paired =>
    have opened : Paired false ([.lock .compact .exclusive] ++ walAppend) false := by simp [walAppend, Paired]
    have handed : Paired false (walAppend : LockProgram) false := by simp [walAppend, Paired]
    exact ((opened.append paired).append handed).append rfl

theorem Operation.closed {p : LockProgram} (operation : Operation p) : Closed Lock.rank p := by
  cases operation with
  | computeAvailability chain resource => exact computeAvailability_closed chain resource
  | computeMultiAvailability resources | getAvailabilityMulti resources =>
      exact .flatMap fun r _ => computeAvailability_closed r.1 r.2
  | resourceInfo resource | getRules resource | getBookings resource | getHolds resource => exact read_closed resource
  | listResources resources | getBookingsMulti resources | getHoldsMulti resources =>
      exact .flatMap fun h _ => read_closed h
  | addRule parent resource | updateRule parent resource => exact addRule_closed parent resource
  | batchAddRules rules => exact .flatMap fun r _ => addRule_closed r.1 r.2
  | removeRule resource | removeHold resource | cancelBooking resource | updateResource resource =>
      exact late_closed resource
  | placeHold chain resource | confirmBooking chain resource => exact placeHold_closed chain resource
  | batchPlaceHolds chains resourceIds found | batchConfirmBookings chains resourceIds found =>
      exact batchPlaceHolds_closed chains resourceIds found
  | commitHolds resourceIds found => exact commitHolds_closed resourceIds found
  | createResource => exact createResource_closed
  | batchCreateResources count =>
      exact .flatten fun p inside => List.eq_of_mem_replicate inside ▸ createResource_closed
  | deleteResource resource => exact deleteResource_closed resource
  | compactWal resources => exact compactWal_closed resources
  | walAppendsSinceCompact => exact ⟨trivial, rfl, rfl, rfl, rfl⟩

end LockProgram

/-! ## No circle -/

/-- The places in the log writer's channel. -/
def walChannel : Nat := 4096

/-- Whether an action, where it starts something, starts an operation of the engine. -/
def Operates : Action Lock → Prop
  | .start _ program => LockProgram.Operation program
  | _ => True

theorem operations_sound {s : System Lock} (reached : Reaches (step walChannel) (fun _ a => Operates a) System.idle s) :
    Sound Lock.rank s := by
  apply reached.invariant idle_sound
  intro s a s' sound operates taken
  apply sound.took (took taken)
  rintro i program rfl
  exact LockProgram.Operation.closed operates

/-- Who cannot go on waits for somebody. -/
theorem operations_move {s : System Lock} (reached : Reaches (step walChannel) (fun _ a => Operates a) System.idle s)
    {i : Nat} {t : Locking.Task Lock} (found : s.tasks i = some t) (more : t.rest ≠ []) :
    (∃ a ∈ [Action.ask i, .grant i, .unlock i, .receive i], (step walChannel s a).isSome) ∨
      ∃ p, Waits walChannel s (.task i) p := (operations_sound reached).moves_or_waits found more

/-- However operations interleave, they never wait for one another in a circle. -/
theorem operations_never_deadlock {s : System Lock}
    (reached : Reaches (step walChannel) (fun _ a => Operates a) System.idle s) :
    ∀ p, ¬ TransGen (Waits walChannel s) p p := by
  apply (operations_sound reached).acyclic
  decide

/-- Two commits of the same resources, named in opposite orders: the second waits for the first. -/
def opposed : List (Action Lock) :=
  [.start 0 (LockProgram.commitHolds [1, 2] fun _ => 0), .start 1 (LockProgram.commitHolds [2, 1] fun _ => 0), .ask 0,
    .grant 0, .ask 1, .ask 0, .grant 0]

theorem second_commit_waits : ∃ s, Reaches (step walChannel) (fun _ a => Operates a) System.idle s ∧
    Waits walChannel s (.task 1) (.task 0) ∧ ∀ p, ¬ TransGen (Waits walChannel s) p p := by
  have ran : ((run (step walChannel) opposed System.idle).map fun s => decide ((1, .exclusive) ∈ s.queues (.resource (1, 0)) ∧
      (0, .exclusive) ∈ s.holders (.resource (1, 0)))) = some true := by decide +kernel
  obtain ⟨s, ran, waits⟩ := Option.map_eq_some_iff.mp ran
  obtain ⟨queued, held⟩ := of_decide_eq_true waits
  have reached : Reaches (step walChannel) (fun _ a => Operates a) System.idle s := by
    apply Machine.reaches_of_run _ ran
    simp [opposed, Operates, LockProgram.Operation.commitHolds]
  exact ⟨s, reached, .holder queued held, operations_never_deadlock reached⟩

end Deltat
