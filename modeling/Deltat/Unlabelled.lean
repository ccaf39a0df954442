import Deltat.Lib.TwoRuns
import Deltat.Notices

/-! # Without labels

What the engine computes of a resource, it computes of the resource without its booking labels.
-/

namespace Deltat

open Lib Limits Conflict

def IntervalKind.unlabelled : IntervalKind → IntervalKind
  | booking _ => booking none
  | kind => kind

namespace IntervalKind

variable (kind : IntervalKind)

@[simp] theorem unlabelled_isRule : kind.unlabelled.isRule = kind.isRule := by cases kind <;> rfl

@[simp] theorem unlabelled_isHold : kind.unlabelled.isHold = kind.isHold := by cases kind <;> rfl

@[simp] theorem unlabelled_isBooking : kind.unlabelled.isBooking = kind.isBooking := by cases kind <;> rfl

@[simp] theorem unlabelled_live (now : Ms) : kind.unlabelled.live now = kind.live now := by cases kind <;> rfl

@[simp] theorem unlabelled_nonBlocking : kind.unlabelled = .nonBlocking ↔ kind = .nonBlocking := by
  cases kind <;> simp [unlabelled]

@[simp] theorem unlabelled_blocking : kind.unlabelled = .blocking ↔ kind = .blocking := by
  cases kind <;> simp [unlabelled]

end IntervalKind

def Interval.unlabelled (i : Interval) : Interval := ⟨i.id, i.span, i.kind.unlabelled⟩

namespace Interval

variable (i : Interval)

@[simp] theorem unlabelled_id : i.unlabelled.id = i.id := rfl

@[simp] theorem unlabelled_span : i.unlabelled.span = i.span := rfl

@[simp] theorem unlabelled_kind : i.unlabelled.kind = i.kind.unlabelled := rfl

end Interval

def ResourceState.unlabelled (rs : ResourceState) : ResourceState :=
  { rs with intervals := rs.intervals.map Interval.unlabelled }

namespace ResourceState

variable (rs : ResourceState)

@[simp] theorem unlabelled_id : rs.unlabelled.id = rs.id := rfl

@[simp] theorem unlabelled_parentId : rs.unlabelled.parentId = rs.parentId := rfl

@[simp] theorem unlabelled_name : rs.unlabelled.name = rs.name := rfl

@[simp] theorem unlabelled_capacity : rs.unlabelled.capacity = rs.capacity := rfl

@[simp] theorem unlabelled_bufferAfter : rs.unlabelled.bufferAfter = rs.bufferAfter := rfl

@[simp] theorem unlabelled_buffer : rs.unlabelled.buffer = rs.buffer := rfl

@[simp] theorem unlabelled_intervals : rs.unlabelled.intervals = rs.intervals.map Interval.unlabelled := rfl

@[simp] theorem unlabelled_hasNonBlockingRule : rs.unlabelled.hasNonBlockingRule = rs.hasNonBlockingRule := by
  simp [hasNonBlockingRule, Function.comp_def]

@[simp] theorem unlabelled_overlapping (query : Span) :
    rs.unlabelled.overlapping query = (rs.overlapping query).map Interval.unlabelled := by
  simp only [overlapping, unlabelled_intervals, BinarySearch.partitionPoint_map, ← List.map_take, List.filter_map]
  rfl

theorem unlabelled_insertInterval (i : Interval) :
    (rs.insertInterval i).unlabelled = rs.unlabelled.insertInterval i.unlabelled := by
  simp [insertInterval, unlabelled, BinarySearch.searchBy_map, BinarySearch.insertAt_map]

theorem unlabelled_removeInterval (id : Ulid) : (rs.removeInterval id).unlabelled = rs.unlabelled.removeInterval id := by
  simp only [removeInterval, unlabelled, List.eraseP_map]
  rfl

end ResourceState

/-- What is computed of a resource without its labels is computed alike of two that differ in nothing else. -/
theorem ResourceState.blind {α : Type} {f : ResourceState → α} {rs rs' : ResourceState}
    (same : rs.unlabelled = rs'.unlabelled) (blind : ∀ rs, f rs.unlabelled = f rs) : f rs = f rs' := by
  rw [← blind rs, same, blind rs']

/-! ## Reads and checks -/

section Reads

variable (rs : ResourceState) (query : Span) (now : Ms)

open Availability

/-- What looks at no label finds the same interval. -/
theorem find?_unlabelled {p : Interval → Bool} (blind : ∀ i, p i.unlabelled = p i) (intervals : List Interval) :
    (intervals.map Interval.unlabelled).find? p = (intervals.find? p).map Interval.unlabelled := by
  rw [List.find?_map]
  congr 2
  funext i
  exact blind i

@[simp] theorem unlabelled_ownRuleSpans : ownRuleSpans rs.unlabelled query = ownRuleSpans rs query := by
  simp [ownRuleSpans, List.filter_map, Function.comp_def]

@[simp] theorem unlabelled_availability (opens closes : List Span) :
    availability rs.unlabelled query opens closes now = availability rs query opens closes now := by
  simp only [availability, unlabelled_ownRuleSpans, ResourceState.unlabelled_hasNonBlockingRule,
    ResourceState.unlabelled_overlapping, List.filter_map, List.map_map, Function.comp_def, Interval.unlabelled_kind,
    IntervalKind.unlabelled_live]
  rfl

@[simp] theorem unlabelled_inheritFrom (rules : InheritedRules) :
    InMemoryStore.inheritFrom query rules rs.unlabelled = InMemoryStore.inheritFrom query rules rs := by
  simp [InMemoryStore.inheritFrom, List.filter_map, Function.comp_def]

@[simp] theorem unlabelled_collectActive (buffer : Ms) (exclude : Option Ulid) :
    collectActiveAllocsWithBuffer rs.unlabelled query now buffer exclude =
      collectActiveAllocsWithBuffer rs query now buffer exclude := by
  simp only [collectActiveAllocsWithBuffer, ResourceState.unlabelled_overlapping, List.filter_map, List.map_map,
    Function.comp_def, Interval.unlabelled_kind, IntervalKind.unlabelled_live]
  rfl

@[simp] theorem unlabelled_checkRulesAdmit (opens closes : List Span) (schedule : Bool) :
    checkRulesAdmit rs.unlabelled query opens closes schedule = checkRulesAdmit rs query opens closes schedule := by
  simp [checkRulesAdmit]

@[simp] theorem unlabelled_checkNoConflictExcluding (exclude : Option Ulid) :
    checkNoConflictExcluding rs.unlabelled query now exclude = checkNoConflictExcluding rs query now exclude := by
  unfold checkNoConflictExcluding
  simp only [ResourceState.unlabelled_buffer, ResourceState.unlabelled_capacity, ResourceState.unlabelled_overlapping,
    unlabelled_collectActive]
  have blind : ∀ i : Interval, (decide (some i.unlabelled.id ≠ exclude) && i.unlabelled.kind.live now &&
      (i.unlabelled.span.buffered rs.buffer).overlaps (query.buffered rs.buffer)) =
        (decide (some i.id ≠ exclude) && i.kind.live now &&
          (i.span.buffered rs.buffer).overlaps (query.buffered rs.buffer)) := by
    intro i
    rw [Interval.unlabelled_kind, IntervalKind.unlabelled_live]
    rfl
  rw [find?_unlabelled blind]
  split
  · cases List.find? _ _ <;> rfl
  · rfl

@[simp] theorem unlabelled_checkNoConflict : checkNoConflict rs.unlabelled query now = checkNoConflict rs query now :=
  unlabelled_checkNoConflictExcluding ..

@[simp] theorem unlabelled_checkBatchCapacity (spans : List Span) :
    checkBatchCapacity rs.unlabelled spans now = checkBatchCapacity rs spans now := by
  simp [checkBatchCapacity]

@[simp] theorem unlabelled_rank (opens closes : List Span) (schedule : Bool) (windowEnd : Ms) (limit : Nat) :
    Offer.rank rs.unlabelled query opens closes schedule now windowEnd limit =
      Offer.rank rs query opens closes schedule now windowEnd limit := by
  simp [Offer.rank]

@[simp] theorem unlabelled_refuse (error : EngineError) (opens closes : List Span) (schedule : Bool) (windowEnd : Ms)
    (limit : Nat) : Offer.refuse error rs.unlabelled query opens closes schedule now windowEnd limit =
      Offer.refuse error rs query opens closes schedule now windowEnd limit := by
  simp [Offer.refuse]

end Reads

/-! ## Records -/

/-- Records that differ in nothing but labels. -/
def Event.SameButLabel (a b : Event) : Prop := a.broadcastable = b.broadcastable

namespace Event

variable {a b : Event}

theorem SameButLabel.resourceId (same : a.SameButLabel b) : a.resourceId? = b.resourceId? := by
  rw [← broadcastable_resourceId a, same, broadcastable_resourceId]

theorem same_iff {as bs : List Event} :
    List.Forall₂ SameButLabel as bs ↔ as.map broadcastable = bs.map broadcastable := by
  rw [← List.forall₂_eq_eq_eq, List.forall₂_map_left_iff, List.forall₂_map_right_iff]
  rfl

theorem broadcastable_commit (c : HoldCommit) :
    c.events.map broadcastable = HoldCommit.events ⟨c.holdId, c.bookingId, c.resourceId, c.span, none⟩ := rfl

theorem broadcastable_perResource (ev : Event) : ev.perResource.map broadcastable = ev.broadcastable.perResource := by
  cases ev with
  | holdsCommitted commits =>
      simp only [perResource, broadcastable, List.map_flatMap, List.flatMap_map, broadcastable_commit]
  | _ => rfl

theorem broadcastable_ownPart (own : Ulid) (ev : Event) :
    (ev.ownPart own).map broadcastable = ev.broadcastable.ownPart own := by
  cases ev with
  | holdsCommitted commits =>
      simp only [ownPart, broadcastable, List.map_flatMap, List.filter_map, List.flatMap_map, broadcastable_commit]
      rfl
  | _ => rfl

theorem SameButLabel.perResource (same : a.SameButLabel b) : List.Forall₂ SameButLabel a.perResource b.perResource := by
  rw [same_iff, broadcastable_perResource, same, ← broadcastable_perResource]

theorem SameButLabel.ownPart (same : a.SameButLabel b) (own : Ulid) :
    List.Forall₂ SameButLabel (a.ownPart own) (b.ownPart own) := by
  rw [same_iff, broadcastable_ownPart, same, ← broadcastable_ownPart]

theorem SameButLabel.applySingle (same : a.SameButLabel b) {rs rs' : ResourceState}
    (resources : rs.unlabelled = rs'.unlabelled) :
    (rs.applySingle a).unlabelled = (rs'.applySingle b).unlabelled := by
  have step : ∀ (ev : Event) (rs : ResourceState),
      (rs.applySingle ev).unlabelled = rs.unlabelled.applySingle ev.broadcastable := by
    intro ev rs
    cases ev with
    | ruleAdded _ _ _ flag =>
        cases flag <;> exact rs.unlabelled_insertInterval _
    | ruleUpdated id _ _ flag =>
        simp only [ResourceState.applySingle, broadcastable, ResourceState.unlabelled_insertInterval,
          ResourceState.unlabelled_removeInterval]
        cases flag <;> rfl
    | holdPlaced | bookingConfirmed => exact rs.unlabelled_insertInterval _
    | ruleRemoved | holdReleased | bookingCancelled => exact rs.unlabelled_removeInterval _
    | resourceUpdated | holdsCommitted | resourceCreated | resourceDeleted => rfl
  rw [step, step, resources, same]

end Event

/-! ## Stores -/

namespace InMemoryStore

/-- Stores that differ in nothing but labels. -/
structure SameButLabels (s t : InMemoryStore) : Prop where
  resources : ∀ r, (s.getResource r).map ResourceState.unlabelled = (t.getResource r).map ResourceState.unlabelled
  ids : s.resourceIds = t.resourceIds
  entities : s.entityToResource = t.entityToResource
  children : s.children = t.children
  parents : s.parents = t.parents

namespace SameButLabels

variable {s t : InMemoryStore} (same : s.SameButLabels t)

theorem refl (s : InMemoryStore) : s.SameButLabels s := ⟨fun _ => rfl, rfl, rfl, rfl, rfl⟩

include same

/-- A resource is in both, the same but for labels, or in neither. -/
theorem look (r : Ulid) : (s.getResource r = none ∧ t.getResource r = none) ∨
    ∃ rs rs', s.getResource r = some rs ∧ t.getResource r = some rs' ∧ rs.unlabelled = rs'.unlabelled := by
  have both := same.resources r
  cases here : s.getResource r with
  | none =>
      cases there : t.getResource r with
      | none => exact .inl ⟨rfl, rfl⟩
      | some rs' => rw [here, there] at both; cases both
  | some rs =>
      cases there : t.getResource r with
      | none => rw [here, there] at both; cases both
      | some rs' =>
          rw [here, there] at both
          exact .inr ⟨rs, rs', rfl, rfl, Option.some.inj both⟩

theorem getParent (r : Ulid) : s.getParent r = t.getParent r := congrArg (AList.lookup r) same.parents

theorem getChildren (r : Ulid) : s.getChildren r = t.getChildren r := by
  unfold InMemoryStore.getChildren
  rw [same.children]

theorem getResourceForEntity (x : Ulid) : s.getResourceForEntity x = t.getResourceForEntity x :=
  congrArg (AList.lookup x) same.entities

theorem containsResource (r : Ulid) : s.containsResource r = t.containsResource r := by
  have both := same.resources r
  unfold InMemoryStore.containsResource
  rw [← Option.isSome_map, show (s.resources.lookup r).map ResourceState.unlabelled = _ from both, Option.isSome_map]
  rfl

theorem resourceCount : s.resourceCount = t.resourceCount := congrArg List.length same.ids

/-! ### Changes -/

theorem insertResource (r : Ulid) {rs rs' : ResourceState} (resources : rs.unlabelled = rs'.unlabelled) :
    (s.insertResource r rs).SameButLabels (t.insertResource r rs') where
  resources x := by
    by_cases here : x = r
    · subst here
      simp [InMemoryStore.insertResource, InMemoryStore.getResource, resources]
    · simpa [InMemoryStore.insertResource, InMemoryStore.getResource, AList.lookup_insert_ne here] using same.resources x
  ids := by
    simp only [InMemoryStore.insertResource, resourceIds, AList.keys_insert]
    rw [show s.resources.keys = t.resources.keys from same.ids]
  entities := same.entities
  children := same.children
  parents := by
    have parent : rs.parentId = rs'.parentId := ResourceState.blind resources fun _ => rfl
    simp only [InMemoryStore.insertResource, parent, same.parents]

theorem removeResource (r : Ulid) : (s.removeResource r).SameButLabels (t.removeResource r) where
  resources x := by
    by_cases here : x = r
    · subst here
      simp [InMemoryStore.removeResource, InMemoryStore.getResource]
    · simpa [InMemoryStore.removeResource, InMemoryStore.getResource, AList.lookup_erase_ne here] using same.resources x
  ids := by
    simp only [InMemoryStore.removeResource, resourceIds, AList.keys_erase]
    rw [show s.resources.keys = t.resources.keys from same.ids]
  entities := same.entities
  children := same.children
  parents := congrArg (AList.erase r) same.parents

theorem mapEntity (x r : Ulid) : (s.mapEntity x r).SameButLabels (t.mapEntity x r) where
  resources := same.resources
  ids := same.ids
  entities := by simp only [InMemoryStore.mapEntity, same.entities]
  children := same.children
  parents := same.parents

theorem unmapEntity (x : Ulid) : (s.unmapEntity x).SameButLabels (t.unmapEntity x) where
  resources := same.resources
  ids := same.ids
  entities := congrArg (AList.erase x) same.entities
  children := same.children
  parents := same.parents

theorem addChild (p c : Ulid) : (s.addChild p c).SameButLabels (t.addChild p c) where
  resources := same.resources
  ids := same.ids
  entities := same.entities
  children := by simp only [InMemoryStore.addChild, same.getChildren, same.children]
  parents := same.parents

theorem removeChild (p c : Ulid) : (s.removeChild p c).SameButLabels (t.removeChild p c) := by
  unfold InMemoryStore.removeChild
  rw [same.children]
  cases t.children.lookup p with
  | none => exact same
  | some kids => exact ⟨same.resources, same.ids, same.entities, rfl, same.parents⟩

theorem unmapIntervals {xs ys : List Interval} (intervals : xs.map Interval.unlabelled = ys.map Interval.unlabelled) :
    (s.unmapIntervals xs).SameButLabels (t.unmapIntervals ys) := by
  have each : List.Forall₂ (fun i j : Interval => i.unlabelled = j.unlabelled) xs ys := by
    rw [← List.forall₂_eq_eq_eq, List.forall₂_map_left_iff, List.forall₂_map_right_iff] at intervals
    exact intervals
  clear intervals
  induction each generalizing s t with
  | nil => exact same
  | @cons i j xs ys first _ ih =>
      have ids : i.id = j.id := by rw [← i.unlabelled_id, first, j.unlabelled_id]
      change (InMemoryStore.unmapIntervals (s.unmapEntity i.id) xs).SameButLabels
        (InMemoryStore.unmapIntervals (t.unmapEntity j.id) ys)
      rw [ids]
      exact ih (same.unmapEntity j.id)

theorem indexSingle {a b : Event} (events : a.SameButLabel b) : (s.indexSingle a).SameButLabels (t.indexSingle b) := by
  have blind : ∀ (s : InMemoryStore) (ev : Event), s.indexSingle ev = s.indexSingle ev.broadcastable := by
    intro s ev
    cases ev <;> rfl
  rw [blind s a, blind t b, events]
  cases b.broadcastable with
  | ruleAdded | ruleUpdated | holdPlaced | bookingConfirmed => exact same.mapEntity _ _
  | ruleRemoved | holdReleased | bookingCancelled => exact same.unmapEntity _
  | resourceUpdated | holdsCommitted | resourceCreated | resourceDeleted => exact same

theorem applyEvent {a b : Event} (events : a.SameButLabel b) {rs rs' : ResourceState}
    (resources : rs.unlabelled = rs'.unlabelled) :
    (s.applyEvent rs a).1.SameButLabels (t.applyEvent rs' b).1 ∧
      (s.applyEvent rs a).2.unlabelled = (t.applyEvent rs' b).2.unlabelled := by
  have id : rs.id = rs'.id := ResourceState.blind resources fun _ => rfl
  have parts := events.ownPart rs.id
  unfold InMemoryStore.applyEvent
  rw [← id]
  generalize a.ownPart rs.id = as at parts
  generalize b.ownPart rs.id = bs at parts
  clear id
  induction parts generalizing s t rs rs' with
  | nil => exact ⟨same, resources⟩
  | cons first _ ih => exact ih (same.indexSingle first) (first.applySingle resources)

/-- Applying to a resource what differs in nothing but a label. -/
theorem replayOn (r : Ulid) {a b : Event} (events : a.SameButLabel b) :
    (s.replayOn r a).SameButLabels (t.replayOn r b) := by
  unfold InMemoryStore.replayOn
  rcases same.look r with ⟨here, there⟩ | ⟨rs, rs', here, there, resources⟩
  · rw [here, there]
    exact same
  · rw [here, there]
    obtain ⟨stores, applied⟩ := same.applyEvent events resources
    refine ⟨fun x => ?_, ?_, stores.entities, stores.children, stores.parents⟩
    · by_cases at' : x = r
      · subst at'
        simp [InMemoryStore.getResource, applied]
      · simpa [InMemoryStore.getResource, AList.lookup_insert_ne at'] using same.resources x
    · simp only [resourceIds, AList.keys_insert]
      rw [show s.resources.keys = t.resources.keys from same.ids]

theorem applyChanges {as bs : List Event} (events : List.Forall₂ Event.SameButLabel as bs) (r : Ulid) :
    (Engine.applyChanges as s r).SameButLabels (Engine.applyChanges bs t r) := by
  induction events generalizing s t with
  | nil => exact same
  | @cons a b as bs first _ ih =>
      unfold Engine.applyChanges at ih ⊢
      rw [List.filter_cons, List.filter_cons, first.resourceId]
      split
      · exact ih (same.replayOn r first)
      · exact ih same

theorem foldl_applyChanges {as bs : List Event} (events : List.Forall₂ Event.SameButLabel as bs) (locked : List Ulid) :
    (locked.foldl (Engine.applyChanges as) s).SameButLabels (locked.foldl (Engine.applyChanges bs) t) := by
  induction locked generalizing s t with
  | nil => exact same
  | cons r rest ih => exact ih (same.applyChanges events r)

/-! ### Reads -/

theorem ancestorChain (fuel : Nat) (visited : List Ulid) (parentId : Option Ulid) :
    s.ancestorChain fuel visited parentId = t.ancestorChain fuel visited parentId := by
  induction fuel generalizing visited parentId with
  | zero => cases parentId <;> rfl
  | succ fuel ih =>
      cases parentId with
      | none => rfl
      | some pid => rw [ancestorChain_some, ancestorChain_some, same.getParent, ih]

theorem inheritAlong (query : Span) (chain : List Ulid) (rules : InheritedRules) :
    s.inheritAlong query chain rules = t.inheritAlong query chain rules := by
  induction chain generalizing rules with
  | nil => rfl
  | cons pid chain ih =>
      rw [InMemoryStore.inheritAlong, InMemoryStore.inheritAlong]
      rcases same.look pid with ⟨here, there⟩ | ⟨rs, rs', here, there, resources⟩
      · rw [here, there]
      · rw [here, there]
        have inherited : inheritFrom query rules rs = inheritFrom query rules rs' :=
          ResourceState.blind resources fun rs => unlabelled_inheritFrom rs query rules
        simp only [inherited, ih]

theorem collectInheritedRules (r : Ulid) (parentId : Option Ulid) (query : Span) :
    s.collectInheritedRules r parentId query = t.collectInheritedRules r parentId query := by
  simp only [InMemoryStore.collectInheritedRules, same.ancestorChain, same.inheritAlong]

theorem computeAvailability (now : Ms) (r : Ulid) (queryStart queryEnd : Ms) (minDuration : Option Ms) :
    s.computeAvailability now r queryStart queryEnd minDuration =
      t.computeAvailability now r queryStart queryEnd minDuration := by
  unfold InMemoryStore.computeAvailability
  rcases same.look r with ⟨here, there⟩ | ⟨rs, rs', here, there, resources⟩
  · rw [here, there]
  · rw [here, there]
    have free : ∀ (query : Span) (opens closes : List Span),
        Availability.availability rs query opens closes now = Availability.availability rs' query opens closes now :=
      fun query opens closes => by
        rw [← unlabelled_availability rs, resources, unlabelled_availability]
    simp only [same.getParent, same.collectInheritedRules, free]

theorem getAvailabilityMulti (now : Ms) (ids : List Ulid) (queryStart queryEnd : Ms) (minDuration : Option Ms) :
    s.getAvailabilityMulti now ids queryStart queryEnd minDuration =
      t.getAvailabilityMulti now ids queryStart queryEnd minDuration := by
  simp only [InMemoryStore.getAvailabilityMulti, same.computeAvailability]

theorem computeMultiAvailability (now : Ms) (ids : List Ulid) (queryStart queryEnd : Ms) (n : Nat)
    (minDuration : Option Ms) : s.computeMultiAvailability now ids queryStart queryEnd n minDuration =
      t.computeMultiAvailability now ids queryStart queryEnd n minDuration := by
  simp only [InMemoryStore.computeMultiAvailability, same.computeAvailability]

end SameButLabels

end InMemoryStore

/-! ## Engines -/

namespace Engine

open TwoRuns

/-- Engines that differ in nothing but labels. -/
structure SameButLabels (e f : Engine) : Prop where
  store : e.store.SameButLabels f.store
  clock : e.clock = f.clock
  earliestHoldExpiry : e.earliestHoldExpiry = f.earliestHoldExpiry
  holdGeneration : e.holdGeneration = f.holdGeneration
  maxHoldTtlMs : e.maxHoldTtlMs = f.maxHoldTtlMs
  failed : e.failed = f.failed
  flushFault : e.flushFault = f.flushFault

/-- Resources that differ in nothing but labels. -/
def SameResource (rs rs' : ResourceState) : Prop := rs.unlabelled = rs'.unlabelled

theorem findIntervalOfKind_same {guard guard' : ResourceState} (guards : SameResource guard guard') (id : Ulid)
    {isKind : IntervalKind → Bool} (blind : ∀ kind : IntervalKind, isKind kind.unlabelled = isKind kind) :
    Same (fun i j : Interval => i.unlabelled = j.unlabelled) (findIntervalOfKind guard id isKind)
      (findIntervalOfKind guard' id isKind) := by
  have found : (guard.intervals.find? (·.id = id)).map Interval.unlabelled =
      (guard'.intervals.find? (·.id = id)).map Interval.unlabelled := by
    rw [← find?_unlabelled fun _ => rfl, ← find?_unlabelled fun _ => rfl, ← guard.unlabelled_intervals, guards,
      ← guard'.unlabelled_intervals]
  unfold findIntervalOfKind
  cases here : guard.intervals.find? (·.id = id) with
  | none =>
      cases there : guard'.intervals.find? (·.id = id) with
      | none => exact .error _
      | some j => rw [here, there] at found; cases found
  | some i =>
      cases there : guard'.intervals.find? (·.id = id) with
      | none => rw [here, there] at found; cases found
      | some j =>
          rw [here, there] at found
          have intervals : i.unlabelled = j.unlabelled := Option.some.inj found
          have kinds : isKind i.kind = isKind j.kind := by
            rw [← blind i.kind, ← i.unlabelled_kind, intervals, j.unlabelled_kind, blind]
          simp only [kinds]
          split
          · exact .ok intervals
          · exact .error _

theorem sameResource_length {rs rs' : ResourceState} (same : SameResource rs rs') :
    rs.intervals.length = rs'.intervals.length := by
  rw [← List.length_map Interval.unlabelled, ← rs.unlabelled_intervals, same, rs'.unlabelled_intervals, List.length_map]

/-- The rows of a batch: a resource id, the resource, and its rules. -/
theorem zip_same {α : Type} {locked locked' : List ResourceState} (guards : List.Forall₂ SameResource locked locked')
    (rids : List Ulid) (context : List α) :
    List.Forall₂ (fun a b : (Ulid × ResourceState) × α => a.1.1 = b.1.1 ∧ SameResource a.1.2 b.1.2 ∧ a.2 = b.2)
      ((rids.zip locked).zip context) ((rids.zip locked').zip context) := by
  induction guards generalizing rids context with
  | nil => simp
  | cons first _ ih =>
      cases rids with
      | nil => simp
      | cons r rids =>
          cases context with
          | nil => simp
          | cons rules context => exact .cons ⟨rfl, first, rfl⟩ (ih rids context)

/-- The same booking under two labels that fit. -/
structure SameBooking (a b : Ulid × Ulid × Span × Option String) : Prop where
  booking : (a.1, a.2.1, a.2.2.1) = (b.1, b.2.1, b.2.2.1)
  fits : validateLabel a.2.2.2 = .ok ()
  fits' : validateLabel b.2.2.2 = .ok ()

/-- The same hold committed to the same booking, under two labels that fit. -/
structure SameCommit (a b : Ulid × Ulid × Option String) : Prop where
  hold : a.1 = b.1
  booking : a.2.1 = b.2.1
  fits : validateLabel a.2.2 = .ok ()
  fits' : validateLabel b.2.2 = .ok ()

/-- Entries of a commit that differ in nothing but the label. -/
def SameEntry (a b : HoldCommit) : Prop :=
  (⟨a.holdId, a.bookingId, a.resourceId, a.span, none⟩ : HoldCommit) = ⟨b.holdId, b.bookingId, b.resourceId, b.span, none⟩

theorem checkIntervalLimit_same {guard guard' : ResourceState} (guards : SameResource guard guard') :
    checkIntervalLimit guard = checkIntervalLimit guard' :=
  ResourceState.blind guards fun rs => by simp [checkIntervalLimit]

namespace SameButLabels

variable {e f : Engine} (same : e.SameButLabels f)

include same

theorem resource (r : Ulid) : Same SameResource (e.resource r) (f.resource r) := by
  unfold Engine.resource
  rcases same.store.look r with ⟨here, there⟩ | ⟨rs, rs', here, there, resources⟩
  · rw [here, there]
    exact .error _
  · rw [here, there]
    exact .ok resources

theorem rejectReusedId (x : Ulid) : e.rejectReusedId x = f.rejectReusedId x := by
  simp only [Engine.rejectReusedId, same.store.getResourceForEntity]

theorem resolveEntity (x : Ulid) :
    Same (fun a b : Ulid × ResourceState => a.1 = b.1 ∧ SameResource a.2 b.2) (e.resolveEntity x) (f.resolveEntity x) := by
  unfold Engine.resolveEntity
  rw [same.store.getResourceForEntity]
  cases f.store.getResourceForEntity x with
  | none => exact .error _
  | some r => exact (same.resource r).bind fun _ _ resources => .ok ⟨rfl, resources⟩

theorem holdExpiry (requested : Ms) : e.holdExpiry requested = f.holdExpiry requested := by
  simp only [Engine.holdExpiry, same.clock, same.maxHoldTtlMs]

/-! ### Checks -/

theorem checkParentCoverage (parentId : Ulid) (span : Span) :
    e.checkParentCoverage parentId span = f.checkParentCoverage parentId span := by
  simp only [Engine.checkParentCoverage, same.clock, same.store.computeAvailability]

theorem checkRuleCoverage (r : Ulid) (span : Span) (blocking : Bool) :
    e.checkRuleCoverage r span blocking = f.checkRuleCoverage r span blocking := by
  simp only [Engine.checkRuleCoverage, same.store.getParent, same.checkParentCoverage]

theorem checkAddRule (x r : Ulid) (span : Span) (blocking : Bool) :
    e.checkAddRule x r span blocking = f.checkAddRule x r span blocking := by
  apply Same.eq
  unfold Engine.checkAddRule
  rw [same.checkRuleCoverage, same.rejectReusedId]
  apply Same.bind (.of_eq rfl)
  rintro _ _ rfl
  apply (same.resource r).bind
  intro guard guard' guards
  rw [checkIntervalLimit_same guards]
  exact .of_eq rfl

theorem checkUpdateRule (x : Ulid) (span : Span) (blocking : Bool) :
    e.checkUpdateRule x span blocking = f.checkUpdateRule x span blocking := by
  apply Same.eq
  unfold Engine.checkUpdateRule
  rw [same.store.getResourceForEntity]
  apply Same.bind (.of_eq rfl)
  rintro _ _ rfl
  cases f.store.getResourceForEntity x with
  | none => exact .of_eq rfl
  | some r =>
      simp only [same.checkRuleCoverage]
      apply Same.bind (.of_eq rfl)
      rintro _ _ rfl
      apply (same.resource r).bind
      intro guard guard' guards
      apply (findIntervalOfKind_same guards x IntervalKind.unlabelled_isRule).bind
      exact fun _ _ _ => .ok rfl

theorem checkRemoval (x : Ulid) {isKind : IntervalKind → Bool}
    (blind : ∀ kind : IntervalKind, isKind kind.unlabelled = isKind kind) :
    e.checkRemoval x isKind = f.checkRemoval x isKind := by
  apply Same.eq
  unfold Engine.checkRemoval
  apply (same.resolveEntity x).bind
  rintro ⟨r, guard⟩ ⟨_, guard'⟩ ⟨rfl, guards⟩
  exact (findIntervalOfKind_same guards x blind).bind fun _ _ _ => .ok rfl

theorem resolveEnding (x : Ulid) {isKind : IntervalKind → Bool}
    (blind : ∀ kind : IntervalKind, isKind kind.unlabelled = isKind kind) :
    NotifyingEngine.resolveEnding e x isKind = NotifyingEngine.resolveEnding f x isKind := by
  apply Same.eq
  unfold NotifyingEngine.resolveEnding
  apply (same.resolveEntity x).bind
  rintro ⟨r, guard⟩ ⟨_, guard'⟩ ⟨rfl, guards⟩
  apply (findIntervalOfKind_same guards x blind).bind
  intro i j intervals
  have spans : i.span = j.span := by rw [← i.unlabelled_span, intervals, j.unlabelled_span]
  exact .ok (congrArg (r, ·) spans)

theorem checkDepth (fuel : Nat) (r : Option Ulid) : checkDepth e.store fuel r = checkDepth f.store fuel r := by
  induction fuel generalizing r with
  | zero => cases r <;> rfl
  | succ fuel ih =>
      cases r with
      | none => rfl
      | some cid => rw [Engine.checkDepth, Engine.checkDepth, same.store.getParent, ih]

theorem checkCreate (id : Ulid) (parentId : Option Ulid) (name : Option String) (capacity : UInt32)
    (bufferAfter : Option Ms) :
    e.checkCreate id parentId name capacity bufferAfter = f.checkCreate id parentId name capacity bufferAfter := by
  have parent : e.checkNewParent id parentId = f.checkNewParent id parentId := by
    cases parentId with
    | none => rfl
    | some pid => simp only [Engine.checkNewParent, same.store.containsResource, same.checkDepth]
  simp only [Engine.checkCreate, same.store.resourceCount, same.store.containsResource, parent]

theorem checkDelete (id : Ulid) : Same SameResource (e.checkDelete id) (f.checkDelete id) := by
  unfold Engine.checkDelete
  rw [same.store.containsResource, InMemoryStore.hasChildren, same.store.getChildren, ← InMemoryStore.hasChildren]
  apply Same.bind (.of_eq rfl)
  rintro _ _ rfl
  apply Same.bind (.of_eq rfl)
  rintro _ _ rfl
  exact same.resource id

theorem lockResources (rids : List Ulid) :
    Same (List.Forall₂ SameResource) (e.lockResources rids) (f.lockResources rids) := by
  unfold Engine.lockResources
  apply Same.mapM (List.forall₂_same.mpr fun _ _ => rfl)
  rintro r _ rfl
  exact same.resource r

theorem admitOn {guard guard' : ResourceState} (guards : SameResource guard guard') (rules : InheritedRules)
    (batch : List (Ulid × Span)) : e.admitOn guard rules batch = f.admitOn guard' rules batch := by
  have each : ∀ guard : ResourceState, f.admitOn guard.unlabelled rules batch = f.admitOn guard rules batch := by
    intro guard
    simp only [Engine.admitOn, unlabelled_checkRulesAdmit, unlabelled_checkNoConflict, unlabelled_checkBatchCapacity,
      ResourceState.unlabelled_capacity, ResourceState.unlabelled_buffer]
  rw [← each guard', ← show guard.unlabelled = guard'.unlabelled from guards, each guard]
  simp only [Engine.admitOn, same.clock]

theorem batchRules (members : List (Ulid × Ulid × Span)) : e.batchRules members = f.batchRules members := by
  funext r
  simp only [Engine.batchRules, same.store.getParent, same.store.collectInheritedRules]

theorem admitBatch (members : List (Ulid × Ulid × Span)) : e.admitBatch members = f.admitBatch members := by
  apply Same.eq
  unfold Engine.admitBatch
  simp only [same.batchRules, same.rejectReusedId]
  apply Same.bind (.of_eq rfl)
  rintro _ _ rfl
  apply Same.bind (.of_eq rfl)
  rintro _ _ rfl
  apply Same.bind (.of_eq rfl)
  rintro _ _ rfl
  apply Same.bind (.of_eq rfl)
  rintro context _ rfl
  apply (same.lockResources _).bind
  intro locked locked' guards
  have full : (locked.any fun rs => decide (rs.intervals.length ≥ maxIntervalsPerResource)) =
      locked'.any fun rs => decide (rs.intervals.length ≥ maxIntervalsPerResource) := by
    induction guards with
    | nil => rfl
    | @cons a b _ _ first _ ih =>
        rw [List.any_cons, List.any_cons, ih, sameResource_length first]
  rw [full]
  apply Same.bind (.of_eq rfl)
  rintro _ _ rfl
  apply Same.bind (.of_eq rfl)
  rintro _ _ rfl
  apply Same.forM (zip_same guards _ context)
  rintro ⟨⟨r, guard⟩, rules⟩ ⟨⟨_, guard'⟩, _⟩ ⟨rfl, resources, rfl⟩
  exact .of_eq (same.admitOn resources rules _)

theorem admitOne (x r : Ulid) (span : Span) (rules : InheritedRules) (windowEnd : Ms) (limit : Nat) :
    e.admitOne x r span rules windowEnd limit = f.admitOne x r span rules windowEnd limit := by
  unfold Engine.admitOne
  rcases same.store.look r with ⟨here, there⟩ | ⟨rs, rs', here, there, resources⟩
  · rw [here, there]
  · rw [here, there]
    have each : ∀ (opens closes : List Span) (schedule : Bool), checkRulesAdmit rs span opens closes schedule =
        checkRulesAdmit rs' span opens closes schedule := by
      intro opens closes schedule
      rw [← unlabelled_checkRulesAdmit rs, resources, unlabelled_checkRulesAdmit]
    have free : checkNoConflict rs span f.clock = checkNoConflict rs' span f.clock := by
      rw [← unlabelled_checkNoConflict rs, resources, unlabelled_checkNoConflict]
    have offers : ∀ (error : EngineError) (opens closes : List Span) (schedule : Bool),
        Offer.refuse error rs span opens closes schedule f.clock windowEnd limit =
          Offer.refuse error rs' span opens closes schedule f.clock windowEnd limit := by
      intro error opens closes schedule
      rw [← unlabelled_refuse rs, resources, unlabelled_refuse]
    simp only [same.rejectReusedId, checkIntervalLimit_same resources, each, same.clock, free, offers]

theorem ruleContext (r : Ulid) (span : Span) (limit : Nat) : e.ruleContext r span limit = f.ruleContext r span limit := by
  apply Same.eq
  unfold Engine.ruleContext
  apply (same.resource r).bind
  intro _ _ _
  exact .of_eq (by rw [same.store.getParent, same.store.collectInheritedRules])

theorem checkHold (x r : Ulid) (span : Span) (requested : Ms) (limit : Nat) :
    e.checkHold x r span requested limit = f.checkHold x r span requested limit := by
  simp only [Engine.checkHold, same.holdExpiry, same.ruleContext, same.admitOne]

/-- A booking under any label that fits. -/
theorem checkBooking (x r : Ulid) (span : Span) {label label' : Option String} (limit : Nat)
    (fits : validateLabel label = .ok ()) (fits' : validateLabel label' = .ok ()) :
    e.checkBooking x r span label limit = f.checkBooking x r span label' limit := by
  simp only [Engine.checkBooking, fits, fits', same.ruleContext, same.admitOne]

/-- Bookings under any labels that fit. -/
theorem checkBookings {bookings bookings' : List (Ulid × Ulid × Span × Option String)}
    (each : List.Forall₂ SameBooking bookings bookings') : e.checkBookings bookings = f.checkBookings bookings' := by
  have labels : (bookings.forM fun b => validateLabel b.2.2.2) = bookings'.forM fun b => validateLabel b.2.2.2 :=
    Same.eq (Same.forM each fun a b same => .of_eq (same.fits.trans same.fits'.symm))
  have members : (bookings.map fun b => (b.1, b.2.1, b.2.2.1)) = bookings'.map fun b => (b.1, b.2.1, b.2.2.1) := by
    rw [← List.forall₂_eq_eq_eq, List.forall₂_map_left_iff, List.forall₂_map_right_iff]
    exact each.imp fun a b same => same.booking
  simp only [Engine.checkBookings, labels, members, same.admitBatch]

theorem resolveCommits {commits commits' : List (Ulid × Ulid × Option String)}
    (each : List.Forall₂ SameCommit commits commits') : e.resolveCommits commits = f.resolveCommits commits' := by
  have labels : (commits.forM fun c => validateLabel c.2.2) = commits'.forM fun c => validateLabel c.2.2 :=
    Same.eq (Same.forM each fun a b same => .of_eq (same.fits.trans same.fits'.symm))
  have holds : commits.map (·.1) = commits'.map (·.1) := by
    rw [← List.forall₂_eq_eq_eq, List.forall₂_map_left_iff, List.forall₂_map_right_iff]
    exact each.imp fun a b same => same.hold
  have bookings : commits.map (·.2.1) = commits'.map (·.2.1) := by
    rw [← List.forall₂_eq_eq_eq, List.forall₂_map_left_iff, List.forall₂_map_right_iff]
    exact each.imp fun a b same => same.booking
  apply Same.eq
  unfold Engine.resolveCommits
  rw [each.length_eq, labels, holds, bookings]
  apply Same.bind (.of_eq rfl)
  rintro _ _ rfl
  apply Same.bind (.of_eq rfl)
  rintro _ _ rfl
  apply Same.bind (.of_eq rfl)
  rintro _ _ rfl
  apply Same.bind (.of_eq rfl)
  rintro _ _ rfl
  refine Same.bind (Same.mapM (Q := Eq) each fun a b same' => ?_) fun rids rids' equal => ?_
  · rw [same.store.getResourceForEntity, same'.hold]
    exact .of_eq rfl
  · rw [List.forall₂_eq_eq_eq] at equal
    subst equal
    apply (same.lockResources rids).bind
    exact fun _ _ _ => .ok rfl

theorem admitCommit (limit : Nat) (holdId bookingId : Ulid) (label label' : Option String) (r : Ulid) :
    Same SameEntry (e.admitCommit limit holdId bookingId label r) (f.admitCommit limit holdId bookingId label' r) := by
  have found : Same (fun a b : ResourceState × Span => SameResource a.1 b.1 ∧ a.2 = b.2)
      (do
        let guard ← e.resource r
        let hold ← findIntervalOfKind guard holdId IntervalKind.isHold
        e.rejectReusedId bookingId
        return (guard, hold.span) : Except EngineError (ResourceState × Span))
      (do
        let guard ← f.resource r
        let hold ← findIntervalOfKind guard holdId IntervalKind.isHold
        f.rejectReusedId bookingId
        return (guard, hold.span)) := by
    apply (same.resource r).bind
    intro guard guard' guards
    apply (findIntervalOfKind_same guards holdId IntervalKind.unlabelled_isHold).bind
    intro i j intervals
    have spans : i.span = j.span := by rw [← i.unlabelled_span, intervals, j.unlabelled_span]
    rw [same.rejectReusedId]
    apply Same.bind (.of_eq rfl)
    exact fun _ _ _ => .ok ⟨guards, spans⟩
  unfold Engine.admitCommit
  generalize (do
    let guard ← e.resource r
    let hold ← findIntervalOfKind guard holdId IntervalKind.isHold
    e.rejectReusedId bookingId
    return (guard, hold.span) : Except EngineError (ResourceState × Span)) = here at found
  generalize (do
    let guard ← f.resource r
    let hold ← findIntervalOfKind guard holdId IntervalKind.isHold
    f.rejectReusedId bookingId
    return (guard, hold.span) : Except EngineError (ResourceState × Span)) = there at found
  cases found with
  | error error => exact .error _
  | @ok a b both =>
      obtain ⟨guard, span⟩ := a
      obtain ⟨guard', span'⟩ := b
      obtain ⟨guards, rfl⟩ := both
      have resources : guard.unlabelled = guard'.unlabelled := guards
      have free : checkNoConflictExcluding guard span e.clock (some holdId) =
          checkNoConflictExcluding guard' span f.clock (some holdId) := by
        rw [← unlabelled_checkNoConflictExcluding guard, resources, unlabelled_checkNoConflictExcluding, same.clock]
      have offers : ∀ (error : EngineError) (windowEnd : Ms) (limit : Nat),
          Offer.refuse error guard span [] [] false e.clock windowEnd limit =
            Offer.refuse error guard' span [] [] false f.clock windowEnd limit := by
        intro error windowEnd limit
        rw [← unlabelled_refuse guard, resources, unlabelled_refuse, same.clock]
      have parent : guard.parentId = guard'.parentId := ResourceState.blind resources fun _ => rfl
      have schedule : guard.hasNonBlockingRule = guard'.hasNonBlockingRule :=
        ResourceState.blind resources ResourceState.unlabelled_hasNonBlockingRule
      simp only [free, offers, parent, schedule]
      cases checkNoConflictExcluding guard' span f.clock (some holdId) with
      | error error => exact .error _
      | ok u => exact .ok rfl

theorem checkCommits {commits commits' : List (Ulid × Ulid × Option String)}
    (each : List.Forall₂ SameCommit commits commits') (limit : Nat) :
    Same (fun a b : List Ulid × List HoldCommit => a.1 = b.1 ∧ List.Forall₂ SameEntry a.2 b.2)
      (e.checkCommits commits limit) (f.checkCommits commits' limit) := by
  unfold Engine.checkCommits
  rw [same.resolveCommits each]
  apply Same.bind (.of_eq rfl)
  rintro rids _ rfl
  have rows : List.Forall₂ (fun a b : (Ulid × Ulid × Option String) × Ulid => SameCommit a.1 b.1 ∧ a.2 = b.2)
      (commits.zip rids) (commits'.zip rids) := by
    clear limit
    induction each generalizing rids with
    | nil => simp
    | cons first _ ih =>
        cases rids with
        | nil => simp
        | cons r rids => exact .cons ⟨first, rfl⟩ (ih rids)
  have entries : Same (List.Forall₂ SameEntry) (e.admitCommits commits rids limit) (f.admitCommits commits' rids limit) := by
    unfold Engine.admitCommits
    simp only [each.length_eq]
    apply Same.mapM rows
    rintro ⟨c, r⟩ ⟨c', _⟩ ⟨commit, rfl⟩
    have hold : c.1 = c'.1 := commit.hold
    have booking : c.2.1 = c'.2.1 := commit.booking
    simp only [hold, booking]
    exact same.admitCommit _ _ _ _ _ _
  apply entries.bind
  exact fun _ _ same => .ok ⟨rfl, same⟩

end SameButLabels

end Engine

end Deltat
