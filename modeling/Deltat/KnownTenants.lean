import Deltat.Credentials

/-! # Every known tenant is served

Calls of `get_or_create` in any interleaving. A call looks at the shared map three times: for a
running engine, for the number of tenants, and at the entry of its key. Between its looks others
take theirs, and failed flushes stop engines.
-/

namespace Deltat

open Lib

/-- An engine built for a key. Its hub has the subscriptions of that key. -/
structure BuiltEngine extends TenantEngine where
  key : String
  notify : Nat
  deriving DecidableEq

namespace TenantManager

/-- What a call does next, or what it returned: an engine as it was then. -/
inductive Progress where
  | looking (key : String)
  | counting (key : String) (least : Nat)
  | entering (key : String)
  | returned (outcome : Except String (Nat × BuiltEngine))

/-- How many looks a call has still to take. -/
def Progress.remaining : Progress → Nat
  | .looking _ => 3
  | .counting _ _ => 2
  | .entering _ => 1
  | .returned _ => 0

/-- A call, and whether the map had an engine under its key when it began. -/
structure Call where
  tenant : String
  known : Bool
  progress : Progress

/-- All engines ever built, by number, those of them that the map has now, and the calls so far. -/
structure Registry where
  dataDir : String
  built : List BuiltEngine
  engines : DashMap String Nat
  calls : List Call

namespace Registry

def new (dataDir : String) : Registry := ⟨dataDir, [], ∅, []⟩

/-- The engine of a key, unless a failed flush stopped it. -/
def running (r : Registry) (key : String) : Option (Nat × BuiltEngine) :=
  ((r.engines.lookup key).bind fun number => (r.built[number]?).map (number, ·)).filter (!·.2.failed)

/-- The hub that a stopped engine hands over, or a new one. -/
def hub (r : Registry) (key : String) : Nat :=
  (((r.engines.lookup key).bind (r.built[·]?)).map (·.notify)).getD r.built.length

/-- Build a tenant's engine from its log, which may fail. -/
def start (r : Registry) (key : String) (notify : Nat) (opened : Except String Unit) : Except String BuiltEngine :=
  opened.map fun _ => ⟨⟨walPath r.dataDir key, false⟩, key, notify⟩

/-- A call up to its first look at the map. -/
def opening (alphanumeric : Char → Bool) (tenant : String) : Progress :=
  if tenant.utf8ByteSize > Limits.maxTenantNameLen then .returned (.error "tenant name too long")
  else
    match sanitize alphanumeric tenant with
    | .error error => .returned (.error error)
    | .ok key => .looking key

/-- The look at the key's shard. -/
def hotPath (r : Registry) (key : String) : Progress :=
  match r.running key with
  | some engine => .returned (.ok engine)
  | none => .counting key r.engines.entries.length

/-- What follows from the number of tenants that the walk over the shards found. -/
def bounded (key : String) (tenants : Nat) : Progress :=
  if tenants ≥ Limits.maxTenants then .returned (.error "too many tenants") else .entering key

/-- The entry of a key, which nobody else has meanwhile. -/
def enter (r : Registry) (key : String) (opened : Except String Unit) : Except String (Nat × BuiltEngine) × Registry :=
  match r.running key with
  | some engine => (.ok engine, r)
  | none =>
      match r.start key (r.hub key) opened with
      | .ok engine =>
          (.ok (r.built.length, engine),
            { r with built := r.built ++ [engine], engines := r.engines.insert key r.built.length })
      | .error error => (.error error, r)

/-! ## Steps -/

inductive Action where
  | call (tenant : String)
  | look (c : Nat)
  -- Others insert while the walk counts one shard after the other, so its sum may lag behind.
  | count (c tenants : Nat)
  | enter (c : Nat) (opened : Except String Unit)
  | stop (number : Nat)

/-- Whether the map has an engine, running or stopped, under the key of a name. -/
def knows (alphanumeric : Char → Bool) (r : Registry) (tenant : String) : Bool :=
  match sanitize alphanumeric tenant with
  | .ok key => decide (key ∈ r.engines)
  | .error _ => false

def moved (r : Registry) (c : Nat) (call : Call) (progress : Progress) : Registry :=
  { r with calls := r.calls.set c { call with progress } }

def lookStep (r : Registry) (c : Nat) (call : Call) : Option Registry :=
  match call.progress with
  | .looking key => some (r.moved c call (r.hotPath key))
  | _ => none

def countStep (r : Registry) (c tenants : Nat) (call : Call) : Option Registry :=
  match call.progress with
  | .counting key least =>
      if least ≤ tenants ∧ tenants ≤ r.engines.entries.length then some (r.moved c call (bounded key tenants)) else none
  | _ => none

def enterStep (r : Registry) (c : Nat) (opened : Except String Unit) (call : Call) : Option Registry :=
  match call.progress with
  | .entering key => some ((r.enter key opened).2.moved c call (.returned (r.enter key opened).1))
  | _ => none

def step (alphanumeric : Char → Bool) (r : Registry) : Action → Option Registry
  | .call tenant =>
      some { r with calls := r.calls ++ [⟨tenant, knows alphanumeric r tenant, opening alphanumeric tenant⟩] }
  | .look c => (r.calls[c]?).bind (r.lookStep c)
  | .count c tenants => (r.calls[c]?).bind (r.countStep c tenants)
  | .enter c opened => (r.calls[c]?).bind (r.enterStep c opened)
  | .stop number => (r.built[number]?).map fun engine =>
      { r with built := r.built.set number { engine with failed := true } }

/-- A run in which every known tenant's call has a name of a length that is served, finds fewer
    tenants than the map may have, and opens the log. -/
def Unrefused (alphanumeric : Char → Bool) (r : Registry) : Action → Prop
  | .call tenant => knows alphanumeric r tenant = true → tenant.utf8ByteSize ≤ Limits.maxTenantNameLen
  | .count c tenants => ∀ call, r.calls[c]? = some call → call.known = true → tenants < Limits.maxTenants
  | .enter c opened => ∀ call, r.calls[c]? = some call → call.known = true → opened = .ok ()
  | .look _ | .stop _ => True

section

variable {alphanumeric : Char → Bool} {dataDir key : String} {r r' : Registry} {number c : Nat} {engine : BuiltEngine}
  {opened : Except String Unit} {call : Call}

theorem running_eq_some : r.running key = some (number, engine) ↔
    r.engines.lookup key = some number ∧ r.built[number]? = some engine ∧ engine.failed = false := by
  unfold running
  rw [Option.filter_eq_some_iff, Option.bind_eq_some_iff]
  constructor
  · intro ⟨⟨found, stored, there⟩, runs⟩
    obtain ⟨built, at_, same⟩ := Option.map_eq_some_iff.mp there
    cases same
    exact ⟨stored, at_, by simpa using runs⟩
  · intro ⟨stored, there, runs⟩
    exact ⟨⟨number, stored, by rw [there]; rfl⟩, by simpa using runs⟩

/-- The entry of a key has the engine that runs, builds one, or fails to open the log. -/
theorem enter_cases (r : Registry) (key : String) (opened : Except String Unit) :
    (∃ engine, r.running key = some engine ∧ r.enter key opened = (.ok engine, r)) ∨
    (r.running key = none ∧ opened = .ok () ∧
      r.enter key opened = (.ok (r.built.length, ⟨⟨walPath r.dataDir key, false⟩, key, r.hub key⟩),
        { r with
          built := r.built ++ [⟨⟨walPath r.dataDir key, false⟩, key, r.hub key⟩]
          engines := r.engines.insert key r.built.length })) ∨
    (r.running key = none ∧ ∃ error, opened = .error error ∧ r.enter key opened = (.error error, r)) := by
  unfold enter
  cases runs : r.running key with
  | some engine => exact .inl ⟨engine, rfl, rfl⟩
  | none =>
      right
      cases opened with
      | ok u => exact .inl ⟨rfl, rfl, rfl⟩
      | error error => exact .inr ⟨rfl, error, rfl, rfl⟩

/-! ## One engine runs for a key -/

/-- Whoever runs is the engine that the map has under its key, on the file of that key. -/
structure Sound (dataDir : String) (r : Registry) : Prop where
  directory : r.dataDir = dataDir
  stored : ∀ key number, r.engines.lookup key = some number → ∃ engine, r.built[number]? = some engine ∧ engine.key = key
  current : ∀ number engine, r.built[number]? = some engine → engine.failed = false → r.engines.lookup engine.key = some number
  filed : ∀ engine ∈ r.built, engine.walPath = walPath dataDir engine.key
  kept : ∀ engine ∈ r.built, engine.key ∈ r.engines
  hubs : ∀ a ∈ r.built, ∀ b ∈ r.built, a.key = b.key → a.notify = b.notify

/-- Two engines of one key that both run are one. -/
theorem Sound.one_running (sound : r.Sound dataDir) {number' : Nat} {engine' : BuiltEngine}
    (first : r.built[number]? = some engine) (second : r.built[number']? = some engine') (same : engine.key = engine'.key)
    (runs : engine.failed = false) (runs' : engine'.failed = false) : number = number' := by
  have one := sound.current number engine first runs
  have other := sound.current number' engine' second runs'
  rw [same, other] at one
  exact (Option.some.inj one).symm

/-- A key's stopped engine hands its hub on. -/
theorem Sound.hub_eq (sound : r.Sound dataDir) (inside : engine ∈ r.built) : r.hub engine.key = engine.notify := by
  obtain ⟨number, stored⟩ := Option.isSome_iff_exists.mp (AList.lookup_isSome.mpr (sound.kept engine inside))
  obtain ⟨last, there, named⟩ := sound.stored _ _ stored
  unfold hub
  rw [stored, Option.bind_some, there]
  exact sound.hubs last (List.mem_of_getElem? there) engine inside named

theorem sound_new (dataDir : String) : (new dataDir).Sound dataDir where
  directory := rfl
  stored := by
    intro key number found
    cases found
  current := by
    intro number engine found
    cases found
  filed := by
    intro engine inside
    cases inside
  kept := by
    intro engine inside
    cases inside
  hubs := by
    intro engine inside
    cases inside

/-- Calls are no part of what makes a registry sound. -/
theorem Sound.withCalls (sound : r.Sound dataDir) (calls : List Call) : Sound dataDir { r with calls := calls } :=
  ⟨sound.directory, sound.stored, sound.current, sound.filed, sound.kept, sound.hubs⟩

/-- An engine is built where none runs, in the place of a stopped one or of none. -/
theorem Sound.build (sound : r.Sound dataDir) (idle : r.running key = none) :
    Sound dataDir { r with
      built := r.built ++ [⟨⟨walPath r.dataDir key, false⟩, key, r.hub key⟩]
      engines := r.engines.insert key r.built.length } where
  directory := sound.directory
  stored := by
    intro k number found
    by_cases same : k = key
    · subst same
      simp only [AList.lookup_insert, Option.some.injEq] at found
      subst found
      exact ⟨_, List.getElem?_concat_length, rfl⟩
    · simp only [AList.lookup_insert_ne same] at found
      obtain ⟨engine, there, named⟩ := sound.stored k number found
      exact ⟨engine, by rw [List.getElem?_append_left (List.getElem?_eq_some_iff.mp there).1, there], named⟩
  current := by
    intro number engine found runs
    rcases Nat.lt_trichotomy number r.built.length with before | rfl | after
    · simp only [List.getElem?_append_left before] at found
      have stored := sound.current number engine found runs
      have other : engine.key ≠ key := by
        intro same
        rw [same] at stored
        rw [running_eq_some.mpr ⟨stored, found, runs⟩] at idle
        cases idle
      rw [AList.lookup_insert_ne other, stored]
    · simp only [List.getElem?_concat_length, Option.some.injEq] at found
      rw [← found, AList.lookup_insert]
    · rw [List.getElem?_eq_none (by simp; omega)] at found
      cases found
  filed := by
    intro engine inside
    rcases List.mem_append.mp inside with old | fresh
    · exact sound.filed engine old
    · rw [List.mem_singleton.mp fresh, sound.directory]
  kept := by
    intro engine inside
    rw [AList.mem_insert]
    rcases List.mem_append.mp inside with old | fresh
    · exact .inr (sound.kept engine old)
    · exact .inl (by rw [List.mem_singleton.mp fresh])
  hubs := by
    have handed : ∀ a ∈ r.built, a.key = key → a.notify = r.hub key := by
      intro a inside same
      rw [← same, sound.hub_eq inside]
    intro a inside b inside' same
    rcases List.mem_append.mp inside with old | fresh <;> rcases List.mem_append.mp inside' with old' | fresh'
    · exact sound.hubs a old b old' same
    · rw [List.mem_singleton.mp fresh'] at same ⊢
      exact handed a old same
    · rw [List.mem_singleton.mp fresh] at same ⊢
      exact (handed b old' same.symm).symm
    · rw [List.mem_singleton.mp fresh, List.mem_singleton.mp fresh']

theorem Sound.enter (sound : r.Sound dataDir) (key : String) (opened : Except String Unit) :
    (r.enter key opened).2.Sound dataDir := by
  rcases enter_cases r key opened with ⟨engine, _, entered⟩ | ⟨idle, _, entered⟩ | ⟨_, error, _, entered⟩
  · rw [entered]
    exact sound
  · rw [entered]
    exact sound.build idle
  · rw [entered]
    exact sound

theorem Sound.stop (sound : r.Sound dataDir) (there : r.built[number]? = some engine) :
    Sound dataDir { r with built := r.built.set number { engine with failed := true } } := by
  have inside := List.mem_of_getElem? there
  have inRange := (List.getElem?_eq_some_iff.mp there).1
  -- Whoever is in the list now was in it, perhaps still running.
  have before : ∀ a ∈ r.built.set number { engine with failed := true }, ∃ b ∈ r.built,
      a.key = b.key ∧ a.walPath = b.walPath ∧ a.notify = b.notify := by
    intro a inside'
    rcases List.mem_or_eq_of_mem_set inside' with old | fresh
    · exact ⟨a, old, rfl, rfl, rfl⟩
    · exact ⟨engine, inside, by rw [fresh], by rw [fresh], by rw [fresh]⟩
  constructor
  · exact sound.directory
  · intro k i found
    obtain ⟨last, at_, named⟩ := sound.stored k i found
    by_cases same : number = i
    · subst same
      rw [there] at at_
      cases at_
      exact ⟨_, List.getElem?_set_self inRange, named⟩
    · exact ⟨last, by rw [List.getElem?_set_ne same, at_], named⟩
  · intro i a found runs
    by_cases same : number = i
    · subst same
      simp only [List.getElem?_set_self inRange, Option.some.injEq] at found
      rw [← found] at runs
      cases runs
    · simp only [List.getElem?_set_ne same] at found
      exact sound.current i a found runs
  · intro a inside'
    obtain ⟨b, old, key, path, _⟩ := before a inside'
    rw [path, key, sound.filed b old]
  · intro a inside'
    obtain ⟨b, old, key, _, _⟩ := before a inside'
    rw [key]
    exact sound.kept b old
  · intro a inside' b inside'' same
    obtain ⟨a', old, key, _, hub⟩ := before a inside'
    obtain ⟨b', old', key', _, hub'⟩ := before b inside''
    rw [hub, hub']
    exact sound.hubs a' old b' old' (by rw [← key, same, key'])

/-! ## What a step does -/

/-- What later states keep: the directory, the keys, and every engine apart from its being stopped. -/
structure Extends (r r' : Registry) : Prop where
  directory : r'.dataDir = r.dataDir
  keys : ∀ key ∈ r.engines, key ∈ r'.engines
  size : r.engines.entries.length ≤ r'.engines.entries.length
  built : ∀ (number : Nat) (engine : BuiltEngine), r.built[number]? = some engine → ∃ failed, r'.built[number]? = some { engine with failed := failed }

theorem Extends.refl (r : Registry) : r.Extends r :=
  ⟨rfl, fun _ inside => inside, le_refl _, fun _ engine there => ⟨engine.failed, there⟩⟩

theorem Extends.withCalls (extends_ : r.Extends r') (calls : List Call) : r.Extends { r' with calls := calls } :=
  ⟨extends_.directory, extends_.keys, extends_.size, extends_.built⟩

theorem length_insert_ge {κ ν : Type} [DecidableEq κ] (map : DashMap κ ν) (k : κ) (v : ν) :
    map.entries.length ≤ (map.insert k v).entries.length := by
  have keys : ∀ m : DashMap κ ν, m.keys.length = m.entries.length := fun m => List.length_map _
  rw [← keys, ← keys, AList.keys_insert, List.length_cons, List.length_erase]
  split <;> omega

theorem enter_extends (r : Registry) (key : String) (opened : Except String Unit) : r.Extends (r.enter key opened).2 := by
  rcases enter_cases r key opened with ⟨engine, _, entered⟩ | ⟨_, _, entered⟩ | ⟨_, error, _, entered⟩
  · rw [entered]
    exact .refl r
  · rw [entered]
    refine ⟨rfl, fun k inside => (AList.mem_insert _).mpr (.inr inside), length_insert_ge _ _ _, fun number engine there => ?_⟩
    exact ⟨engine.failed, by rw [List.getElem?_append_left (List.getElem?_eq_some_iff.mp there).1, there]⟩
  · rw [entered]
    exact .refl r

theorem enter_calls (r : Registry) (key : String) (opened : Except String Unit) : (r.enter key opened).2.calls = r.calls := by
  rcases enter_cases r key opened with ⟨engine, _, entered⟩ | ⟨_, _, entered⟩ | ⟨_, error, _, entered⟩
  all_goals rw [entered]

/-- A call's own step: what it was about to do, where that leads, and the registry it leaves. -/
inductive Moves (r : Registry) (c : Nat) (call : Call) : Action → Progress → Registry → Prop where
  | look {key : String} (about : call.progress = .looking key) : Moves r c call (.look c) (r.hotPath key) r
  | count {key : String} {least tenants : Nat} (about : call.progress = .counting key least) (least_le : least ≤ tenants)
      (le_size : tenants ≤ r.engines.entries.length) : Moves r c call (.count c tenants) (bounded key tenants) r
  | enter {key : String} (opened : Except String Unit) (about : call.progress = .entering key) :
      Moves r c call (.enter c opened) (.returned (r.enter key opened).1) (r.enter key opened).2

/-- A step begins a call, moves one on, or stops an engine. -/
theorem step_cases {a : Action} (taken : step alphanumeric r a = some r') :
    (∃ tenant, a = .call tenant ∧
      r' = { r with calls := r.calls ++ [⟨tenant, knows alphanumeric r tenant, opening alphanumeric tenant⟩] }) ∨
    (∃ c call progress after, r.calls[c]? = some call ∧ Moves r c call a progress after ∧ r' = after.moved c call progress) ∨
    (∃ number engine, a = .stop number ∧ r.built[number]? = some engine ∧
      r' = { r with built := r.built.set number { engine with failed := true } }) := by
  cases a with
  | call tenant =>
      left
      exact ⟨tenant, rfl, (Option.some.inj taken).symm⟩
  | look c =>
      right; left
      obtain ⟨call, there, moved⟩ := Option.bind_eq_some_iff.mp taken
      unfold lookStep at moved
      split at moved
      · next key about => exact ⟨c, call, _, r, there, .look about, (Option.some.inj moved).symm⟩
      · cases moved
  | count c tenants =>
      right; left
      obtain ⟨call, there, moved⟩ := Option.bind_eq_some_iff.mp taken
      unfold countStep at moved
      split at moved
      · next key least about =>
          split at moved
          · next within => exact ⟨c, call, _, r, there, .count about within.1 within.2, (Option.some.inj moved).symm⟩
          · cases moved
      · cases moved
  | enter c opened =>
      right; left
      obtain ⟨call, there, moved⟩ := Option.bind_eq_some_iff.mp taken
      unfold enterStep at moved
      split at moved
      · next key about => exact ⟨c, call, _, _, there, .enter opened about, (Option.some.inj moved).symm⟩
      · cases moved
  | stop number =>
      right; right
      obtain ⟨engine, there, stopped⟩ := Option.map_eq_some_iff.mp taken
      exact ⟨number, engine, rfl, there, stopped.symm⟩

theorem Moves.step {a : Action} {progress : Progress} {after : Registry} (there : r.calls[c]? = some call)
    (moves : Moves r c call a progress after) : step alphanumeric r a = some (after.moved c call progress) := by
  cases moves with
  | look about => simp only [Registry.step, there, Option.bind_some, lookStep, about]
  | count about least_le le_size =>
      simp only [Registry.step, there, Option.bind_some, countStep, about, least_le, le_size, and_self, if_true]
  | enter opened about => simp only [Registry.step, there, Option.bind_some, enterStep, about]

theorem Moves.extends {a : Action} {progress : Progress} {after : Registry} (moves : Moves r c call a progress after) :
    r.Extends after := by
  cases moves with
  | look about => exact .refl r
  | count about least_le le_size => exact .refl r
  | enter opened about => exact enter_extends r _ opened

theorem Moves.calls {a : Action} {progress : Progress} {after : Registry} (moves : Moves r c call a progress after) :
    after.calls = r.calls := by
  cases moves with
  | look about => rfl
  | count about least_le le_size => rfl
  | enter opened about => exact enter_calls r _ opened

theorem Moves.sound {a : Action} {progress : Progress} {after : Registry} (moves : Moves r c call a progress after)
    (sound : r.Sound dataDir) : after.Sound dataDir := by
  cases moves with
  | look about => exact sound
  | count about least_le le_size => exact sound
  | enter opened about => exact sound.enter _ opened

theorem Sound.step {a : Action} (sound : r.Sound dataDir) (taken : step alphanumeric r a = some r') : r'.Sound dataDir := by
  rcases step_cases taken with ⟨tenant, rfl, rfl⟩ | ⟨c, call, progress, after, there, moves, rfl⟩ | ⟨number, engine, rfl, there, rfl⟩
  · exact sound.withCalls _
  · exact (moves.sound sound).withCalls _
  · exact sound.stop there

theorem step_extends {a : Action} (taken : step alphanumeric r a = some r') : r.Extends r' := by
  rcases step_cases taken with ⟨tenant, rfl, rfl⟩ | ⟨c, call, progress, after, there, moves, rfl⟩ | ⟨number, engine, rfl, there, rfl⟩
  · exact (Extends.refl r).withCalls _
  · exact moves.extends.withCalls _
  · refine ⟨rfl, fun _ inside => inside, le_refl _, fun i engine' at_ => ?_⟩
    by_cases same : number = i
    · subst same
      rw [there] at at_
      cases at_
      exact ⟨true, List.getElem?_set_self (List.getElem?_eq_some_iff.mp there).1⟩
    · exact ⟨engine'.failed, by rw [List.getElem?_set_ne same, at_]⟩

/-! ## What a known tenant's call gets -/

/-- An engine that ran when it was handed out, built for the key on the key's own file. -/
def Gets (r : Registry) (key : String) (outcome : Except String (Nat × BuiltEngine)) : Prop :=
  ∃ number engine failed, outcome = .ok (number, engine) ∧ engine.failed = false ∧ engine.key = key ∧
    engine.walPath = walPath r.dataDir key ∧ r.built[number]? = some { engine with failed := failed }

/-- A call that is on its way to an engine of the key, or has got one. -/
def Serves (r : Registry) (key : String) : Progress → Prop
  | .looking k | .counting k _ | .entering k => k = key
  | .returned outcome => r.Gets key outcome

/-- A call that counts will find at least what it has counted from, and a known tenant's call is
    on its way to an engine of its key. -/
structure Entitled (alphanumeric : Char → Bool) (r : Registry) (call : Call) : Prop where
  counts : ∀ key least, call.progress = .counting key least → least ≤ r.engines.entries.length
  serves : call.known = true → ∃ key, sanitize alphanumeric call.tenant = .ok key ∧ key ∈ r.engines ∧
    r.Serves key call.progress

theorem Gets.extended {outcome : Except String (Nat × BuiltEngine)} (gets : r.Gets key outcome) (extended : r.Extends r') :
    r'.Gets key outcome := by
  obtain ⟨number, engine, failed, same, ran, named, path, there⟩ := gets
  obtain ⟨failed', there'⟩ := extended.built _ _ there
  exact ⟨number, engine, failed', same, ran, named, by rw [path, extended.directory], there'⟩

theorem Serves.extended {progress : Progress} (serves : r.Serves key progress) (extended : r.Extends r') :
    r'.Serves key progress := by
  cases progress with
  | looking k => exact serves
  | counting k least => exact serves
  | entering k => exact serves
  | returned outcome => exact Gets.extended serves extended

theorem Entitled.extended (entitled : Entitled alphanumeric r call) (extended : r.Extends r') :
    Entitled alphanumeric r' call where
  counts := fun key least counting => (entitled.counts key least counting).trans extended.size
  serves := by
    intro known
    obtain ⟨key, sanitized, inside, serves⟩ := entitled.serves known
    exact ⟨key, sanitized, extended.keys key inside, serves.extended extended⟩

/-- An engine that runs can be handed out. -/
theorem Sound.gets_running (sound : r.Sound dataDir) {found : Nat × BuiltEngine} (runs : r.running key = some found) :
    r.Gets key (.ok found) := by
  obtain ⟨stored, there, ran⟩ := running_eq_some.mp runs
  obtain ⟨engine, at_, named⟩ := sound.stored key _ stored
  rw [there] at at_
  cases at_
  refine ⟨found.1, found.2, found.2.failed, rfl, ran, named, ?_, there⟩
  rw [sound.filed _ (List.mem_of_getElem? there), named, sound.directory]

/-- The entry of a key whose log opens has an engine for the call. -/
theorem Sound.gets_entered (sound : r.Sound dataDir) (key : String) :
    (r.enter key (.ok ())).2.Gets key (r.enter key (.ok ())).1 := by
  rcases enter_cases r key (.ok ()) with ⟨engine, runs, entered⟩ | ⟨_, _, entered⟩ | ⟨_, error, failed, _⟩
  · rw [entered]
    exact sound.gets_running runs
  · rw [entered]
    exact ⟨_, _, false, rfl, rfl, rfl, rfl, List.getElem?_concat_length⟩
  · cases failed

/-- A call's own step leads a known tenant on when it is not refused. -/
theorem Moves.entitled {a : Action} {progress : Progress} {after : Registry} (sound : r.Sound dataDir)
    (there : r.calls[c]? = some call) (entitled : Entitled alphanumeric r call) (unrefused : Unrefused alphanumeric r a)
    (moves : Moves r c call a progress after) : Entitled alphanumeric after { call with progress } := by
  cases moves with
  | @look key about =>
      have looked : (r.hotPath key = .counting key r.engines.entries.length) ∨
          ∃ found, r.running key = some found ∧ r.hotPath key = .returned (.ok found) := by
        unfold hotPath
        cases runs : r.running key with
        | none => exact .inl rfl
        | some found => exact .inr ⟨found, rfl, rfl⟩
      constructor
      · intro k least counting
        rcases looked with idle | ⟨found, _, returned⟩
        · cases idle.symm.trans counting
          exact le_refl _
        · cases returned.symm.trans counting
      · intro known
        obtain ⟨k, sanitized, inside, serves⟩ := entitled.serves known
        rw [about] at serves
        cases serves
        refine ⟨key, sanitized, inside, ?_⟩
        rcases looked with idle | ⟨found, runs, returned⟩
        · simp only [idle]
          rfl
        · simp only [returned]
          exact sound.gets_running runs
  | @count key least tenants about least_le le_size =>
      constructor
      · intro k least' counting
        change bounded key tenants = _ at counting
        unfold bounded at counting
        split at counting <;> cases counting
      · intro known
        obtain ⟨k, sanitized, inside, serves⟩ := entitled.serves known
        rw [about] at serves
        cases serves
        refine ⟨key, sanitized, inside, ?_⟩
        have few : ¬ tenants ≥ Limits.maxTenants := Nat.not_le.mpr (unrefused call there known)
        simp only [bounded, if_neg few]
        rfl
  | @enter key opened about =>
      constructor
      · intro k least counting
        cases counting
      · intro known
        obtain ⟨k, sanitized, inside, serves⟩ := entitled.serves known
        rw [about] at serves
        cases serves
        have opens : opened = .ok () := unrefused call there known
        subst opens
        exact ⟨key, sanitized, (enter_extends r key _).keys key inside, sound.gets_entered key⟩

/-- A call that begins for a known tenant looks for its key. -/
theorem opening_entitled {tenant : String} (unrefused : Unrefused alphanumeric r (.call tenant)) :
    Entitled alphanumeric r ⟨tenant, knows alphanumeric r tenant, opening alphanumeric tenant⟩ where
  counts := by
    intro key least counting
    change opening alphanumeric tenant = _ at counting
    unfold opening at counting
    split at counting
    · cases counting
    · split at counting <;> cases counting
  serves := by
    intro known
    have short : ¬ tenant.utf8ByteSize > Limits.maxTenantNameLen := Nat.not_lt.mpr (unrefused known)
    change knows alphanumeric r tenant = true at known
    unfold knows at known
    cases sanitized : sanitize alphanumeric tenant with
    | error error =>
        rw [sanitized] at known
        cases known
    | ok key =>
        rw [sanitized] at known
        refine ⟨key, rfl, of_decide_eq_true known, ?_⟩
        simp only [opening, if_neg short, sanitized]
        rfl

theorem step_entitled {a : Action} (sound : r.Sound dataDir) (entitled : ∀ call ∈ r.calls, Entitled alphanumeric r call)
    (unrefused : Unrefused alphanumeric r a) (taken : step alphanumeric r a = some r') :
    ∀ call ∈ r'.calls, Entitled alphanumeric r' call := by
  have extended := step_extends taken
  rcases step_cases taken with ⟨tenant, rfl, rfl⟩ | ⟨c, call, progress, after, there, moves, rfl⟩ | ⟨number, engine, rfl, there, rfl⟩
  · intro call inside
    rcases List.mem_append.mp inside with old | fresh
    · exact (entitled call old).extended extended
    · rw [List.mem_singleton.mp fresh]
      exact (opening_entitled unrefused).extended extended
  · intro other inside
    rcases List.mem_or_eq_of_mem_set inside with old | fresh
    · rw [moves.calls] at old
      exact (entitled other old).extended extended
    · rw [fresh]
      have own := moves.entitled sound there (entitled call (List.mem_of_getElem? there)) unrefused
      exact own.extended ((Extends.refl after).withCalls _)
  · intro call inside
    exact (entitled call inside).extended extended

/-! ## Runs -/

/-- Any run keeps the registry sound. -/
theorem sound_of_reaches {allowed : Registry → Action → Prop}
    (reached : Machine.Reaches (step alphanumeric) allowed (new dataDir) r) : r.Sound dataDir :=
  reached.invariant (sound_new dataDir) fun _ _ _ sound _ taken => sound.step taken

theorem entitled_of_reaches (reached : Machine.Reaches (step alphanumeric) (Unrefused alphanumeric) (new dataDir) r) :
    ∀ call ∈ r.calls, Entitled alphanumeric r call := by
  have both : r.Sound dataDir ∧ ∀ call ∈ r.calls, Entitled alphanumeric r call := by
    apply reached.invariant
    · exact ⟨sound_new dataDir, fun call inside => by cases inside⟩
    · intro r a r' holds unrefused taken
      exact ⟨holds.1.step taken, step_entitled holds.1 holds.2 unrefused taken⟩
  exact both.2

theorem Moves.remaining {a : Action} {progress : Progress} {after : Registry} (moves : Moves r c call a progress after) :
    progress.remaining < call.progress.remaining := by
  cases moves with
  | look about =>
      rw [about, hotPath]
      split <;> simp [Progress.remaining]
  | count about least_le le_size =>
      rw [about, bounded]
      split <;> simp [Progress.remaining]
  | enter opened about =>
      rw [about]
      simp [Progress.remaining]

/-- No step sends a call back. -/
theorem step_call {a : Action} (taken : step alphanumeric r a = some r') (there : r.calls[c]? = some call) :
    ∃ call', r'.calls[c]? = some call' ∧ call'.progress.remaining ≤ call.progress.remaining := by
  have inRange := (List.getElem?_eq_some_iff.mp there).1
  rcases step_cases taken with ⟨tenant, rfl, rfl⟩ | ⟨mover, other, progress, after, at_, moves, rfl⟩ | ⟨number, engine, rfl, _, rfl⟩
  · exact ⟨call, by rw [List.getElem?_append_left inRange, there], le_refl _⟩
  · by_cases same : mover = c
    · subst same
      rw [there] at at_
      cases at_
      refine ⟨{ call with progress }, ?_, moves.remaining.le⟩
      exact List.getElem?_set_self (by rw [moves.calls]; exact inRange)
    · refine ⟨call, ?_, le_refl _⟩
      rw [← there, ← moves.calls]
      exact List.getElem?_set_ne same
  · exact ⟨call, there, le_refl _⟩

/-- A call that has not returned can take its next look. -/
theorem Entitled.moves_on (entitled : Entitled alphanumeric r call) (there : r.calls[c]? = some call)
    (pending : 0 < call.progress.remaining) : ∃ a r' call', step alphanumeric r a = some r' ∧ r'.calls[c]? = some call' ∧
      call'.progress.remaining < call.progress.remaining := by
  have inRange := (List.getElem?_eq_some_iff.mp there).1
  have moved : ∀ a progress after, Moves r c call a progress after → ∃ a r' call', step alphanumeric r a = some r' ∧
      r'.calls[c]? = some call' ∧ call'.progress.remaining < call.progress.remaining := by
    intro a progress after moves
    refine ⟨a, _, { call with progress }, moves.step there, ?_, moves.remaining⟩
    exact List.getElem?_set_self (by rw [moves.calls]; exact inRange)
  cases about : call.progress with
  | looking key => exact about ▸ moved _ _ _ (.look about)
  | counting key least => exact about ▸ moved _ _ _ (.count about (entitled.counts key least about) (le_refl _))
  | entering key => exact about ▸ moved _ _ _ (.enter (.ok ()) about)
  | returned outcome =>
      rw [about] at pending
      cases pending

/-- A call that has returned an engine of its key, or that can take its next look. -/
def Served (alphanumeric : Char → Bool) (r : Registry) (c : Nat) (call : Call) : Prop :=
  (∃ key outcome, sanitize alphanumeric call.tenant = .ok key ∧ call.progress = .returned outcome ∧ r.Gets key outcome) ∨
    ∃ a r' call', step alphanumeric r a = some r' ∧ r'.calls[c]? = some call' ∧
      call'.progress.remaining < call.progress.remaining

/-- Nobody ever runs two engines of one key, and no step sends a call back. And where nobody
    refuses them, every call for a known tenant gets an engine that runs, on that tenant's file. -/
theorem known_tenant_served (alphanumeric : Char → Bool) (dataDir : String) :
    (∀ r, Machine.Reaches (step alphanumeric) (fun _ _ => True) (new dataDir) r →
      (∀ (i j : Nat) (engine engine' : BuiltEngine), r.built[i]? = some engine → r.built[j]? = some engine' →
        engine.key = engine'.key → engine.failed = false → engine'.failed = false → i = j) ∧
      ∀ (a : Action) (r' : Registry) (c : Nat) (call : Call), step alphanumeric r a = some r' → r.calls[c]? = some call →
        ∃ call', r'.calls[c]? = some call' ∧ call'.progress.remaining ≤ call.progress.remaining) ∧
    ∀ r, Machine.Reaches (step alphanumeric) (Unrefused alphanumeric) (new dataDir) r →
      ∀ (c : Nat) (call : Call), r.calls[c]? = some call → call.known = true → Served alphanumeric r c call := by
  constructor
  · intro r reached
    constructor
    · intro i j engine engine' first second same runs runs'
      exact (sound_of_reaches reached).one_running first second same runs runs'
    · intro a r' c call taken there
      exact step_call taken there
  · intro r reached c call there known
    have entitled := entitled_of_reaches reached call (List.mem_of_getElem? there)
    obtain ⟨key, sanitized, _, serves⟩ := entitled.serves known
    cases about : call.progress with
    | returned outcome =>
        rw [about] at serves
        exact .inl ⟨key, outcome, sanitized, about, serves⟩
    | looking k => exact .inr (entitled.moves_on there (by simp [about, Progress.remaining]))
    | counting k least => exact .inr (entitled.moves_on there (by simp [about, Progress.remaining]))
    | entering k => exact .inr (entitled.moves_on there (by simp [about, Progress.remaining]))

/-- A tenant comes, is stopped by a failed flush, and comes again under another spelling. -/
def comesAgain : List Action :=
  [.call "acme", .look 0, .count 0 0, .enter 0 (.ok ()), .stop 0, .call "acme!", .look 1, .count 1 1, .enter 1 (.ok ())]

theorem comesAgain_unrefused : ∀ a ∈ comesAgain, ∀ s, Unrefused (fun _ => false) s a := by
  have short : "acme".utf8ByteSize ≤ Limits.maxTenantNameLen ∧ "acme!".utf8ByteSize ≤ Limits.maxTenantNameLen := by decide
  unfold comesAgain Unrefused Limits.maxTenants
  simp [short]

/-- The second call has an engine that was rebuilt, as the first one's was stopped. -/
theorem rebuilt_tenant_served : ∃ r call engine, Machine.run (step fun _ => false) comesAgain (new "data") = some r ∧
    r.calls[1]? = some call ∧ call.progress = .returned (.ok (1, engine)) ∧ Served (fun _ => false) r 1 call := by
  refine ⟨_, _, _, rfl, rfl, rfl, ?_⟩
  exact (known_tenant_served (fun _ => false) "data").2 _ (Machine.reaches_of_run comesAgain_unrefused rfl) 1 _ rfl rfl

end

/-! ## A stopped tenant in a full house -/

/-- The logs of a run all open. -/
def Action.Opens : Action → Prop
  | .enter _ opened => opened = .ok ()
  | .call _ | .look _ | .count _ _ | .stop _ => True

/-- Short names, all different. -/
def crowdName (k : Nat) : String := String.ofList (List.replicate (k / 200) 'a' ++ List.replicate (k % 200 + 1) 'b')

theorem crowdName_inj {j k : Nat} (same : crowdName j = crowdName k) : j = k := by
  have chars := String.ofList_injective same
  have as := congrArg (List.count 'a') chars
  have bs := congrArg (List.count 'b') chars
  simp [List.count_replicate] at as bs
  omega

theorem crowdName_sanitized (k : Nat) : sanitize (fun _ => false) (crowdName k) = .ok (crowdName k) := by
  have a : keeps (fun _ => false) 'a' = true := by decide
  have b : keeps (fun _ => false) 'b' = true := by decide
  simp [sanitize, crowdName, a, b]

theorem utf8ByteSize_ascii {chars : List Char} (ascii : ∀ c ∈ chars, c.utf8Size = 1) :
    (String.ofList chars).utf8ByteSize = chars.length := by
  induction chars with
  | nil => rfl
  | cons c rest ih =>
      rw [String.ofList_cons, String.utf8ByteSize_append, ih fun d inside => ascii d (List.mem_cons_of_mem _ inside)]
      simp [ascii c List.mem_cons_self]
      omega

theorem crowdName_short {k : Nat} (few : k < 1000) : (crowdName k).utf8ByteSize ≤ Limits.maxTenantNameLen := by
  unfold crowdName
  rw [utf8ByteSize_ascii]
  · rw [List.length_append, List.length_replicate, List.length_replicate]
    unfold Limits.maxTenantNameLen
    omega
  · intro c inside
    rcases List.mem_append.mp inside with a | b
    · rw [List.eq_of_mem_replicate a]
      rfl
    · rw [List.eq_of_mem_replicate b]
      rfl

theorem crowdName_opening {k : Nat} (few : k < 1000) : opening (fun _ => false) (crowdName k) = .looking (crowdName k) := by
  unfold opening
  rw [if_neg (Nat.not_lt.mpr (crowdName_short few)), crowdName_sanitized]

/-- The states of runs without a failure to open a log. -/
def Opened (r : Registry) : Prop := Machine.Reaches (step (fun _ => false)) (fun _ a => a.Opens) (new "data") r

section

variable {r : Registry} {c : Nat} {call : Call}

theorem Opened.sound (reached : r.Opened) : r.Sound "data" := sound_of_reaches reached

/-- A call by one of the crowd, up to its first look. -/
theorem Opened.begins {k : Nat} (reached : r.Opened) (few : k < 1000) : ∃ r' : Registry, r'.Opened ∧
    r'.calls[r.calls.length]? = some ⟨crowdName k, knows (fun _ => false) r (crowdName k), .looking (crowdName k)⟩ ∧
    r'.engines = r.engines ∧ r'.built = r.built := by
  refine ⟨_, .next (.call (crowdName k)) reached trivial rfl, ?_, rfl, rfl⟩
  rw [crowdName_opening few]
  exact List.getElem?_concat_length

theorem Opened.moves {a : Action} {progress : Progress} {after : Registry} (reached : r.Opened)
    (there : r.calls[c]? = some call) (opens : a.Opens) (moves : Moves r c call a progress after) :
    ∃ r' : Registry, r'.Opened ∧ r'.calls[c]? = some { call with progress } ∧ r'.engines = after.engines ∧ r'.built = after.built := by
  refine ⟨_, .next a reached opens (moves.step there), ?_, rfl, rfl⟩
  exact List.getElem?_set_self (by rw [moves.calls]; exact (List.getElem?_eq_some_iff.mp there).1)

/-- Nobody runs for a key that the map does not have. -/
theorem running_none {key : String} (unknown : key ∉ r.engines) : r.running key = none := by
  unfold running
  rw [AList.lookup_eq_none.mpr unknown]
  rfl

/-- One after the other enters, as long as there is room. -/
theorem crowd (k : Nat) (few : k ≤ 1000) : ∃ r : Registry, r.Opened ∧ r.engines.entries.length = k ∧
    ∀ j, crowdName j ∈ r.engines ↔ j < k := by
  induction k with
  | zero => exact ⟨new "data", .start, rfl, fun j => by simp [new]⟩
  | succ k ih =>
      obtain ⟨r, reached, size, members⟩ := ih (by omega)
      have unknown : crowdName k ∉ r.engines := fun inside => absurd ((members k).mp inside) (Nat.lt_irrefl k)
      obtain ⟨r₁, reached₁, there₁, engines₁, built₁⟩ := reached.begins (k := k) (by omega)
      have idle₁ : r₁.running (crowdName k) = none := running_none (by rw [engines₁]; exact unknown)
      obtain ⟨r₂, reached₂, there₂, engines₂, built₂⟩ := reached₁.moves (a := .look r.calls.length) there₁ trivial (.look rfl)
      rw [hotPath, idle₁] at there₂
      have size₂ : r₂.engines.entries.length = k := by rw [engines₂, engines₁, size]
      obtain ⟨r₃, reached₃, there₃, engines₃, built₃⟩ :=
        reached₂.moves (a := .count r.calls.length k) there₂ trivial (.count rfl (by rw [engines₁, size]) size₂.ge)
      have room : ¬ k ≥ Limits.maxTenants := by
        unfold Limits.maxTenants
        omega
      rw [bounded, if_neg room] at there₃
      obtain ⟨r₄, reached₄, _, engines₄, _⟩ := reached₃.moves (a := .enter r.calls.length (.ok ())) there₃ rfl (.enter (.ok ()) rfl)
      have same₃ : r₃.engines = r.engines := by rw [engines₃, engines₂, engines₁]
      have idle₃ : r₃.running (crowdName k) = none := running_none (by rw [same₃]; exact unknown)
      have entered : r₄.engines = r.engines.insert (crowdName k) r₃.built.length := by
        rcases enter_cases r₃ (crowdName k) (.ok ()) with ⟨engine, runs, _⟩ | ⟨_, _, entered⟩ | ⟨_, error, failed, _⟩
        · rw [idle₃] at runs
          cases runs
        · rw [engines₄, entered, ← same₃]
        · cases failed
      refine ⟨r₄, reached₄, ?_, fun j => ?_⟩
      · rw [entered, AList.entries_insert_of_notMem unknown, List.length_cons, size]
      · rw [entered, AList.mem_insert, members]
        constructor
        · rintro (same | before)
          · exact crowdName_inj same ▸ Nat.lt_succ_self k
          · exact Nat.lt_succ_of_lt before
        · intro before
          rcases Nat.lt_succ_iff_lt_or_eq.mp before with before | rfl
          · exact .inr before
          · exact .inl rfl

end

/-- A thousand tenants, one of them stopped: its next call is refused as one too many. -/
theorem stopped_tenant_refused : ¬ ∀ r, Machine.Reaches (step fun _ => false) (fun _ a => a.Opens) (new "data") r →
    ∀ (c : Nat) (call : Call), r.calls[c]? = some call → call.known = true → Served (fun _ => false) r c call := by
  intro claimed
  obtain ⟨r, reached, size, members⟩ := crowd 1000 (le_refl _)
  have inside : crowdName 0 ∈ r.engines := (members 0).mpr (by decide)
  obtain ⟨number, stored⟩ := Option.isSome_iff_exists.mp (AList.lookup_isSome.mpr inside)
  obtain ⟨engine, there, _⟩ := Opened.sound reached |>.stored _ _ stored
  have stopped : Opened { r with built := r.built.set number { engine with failed := true } } :=
    .next (.stop number) reached trivial (by simp [step, there])
  obtain ⟨r₁, reached₁, there₁, engines₁, built₁⟩ := stopped.begins (k := 0) (by decide)
  have idle : r₁.running (crowdName 0) = none := by
    unfold running
    rw [engines₁, built₁, stored]
    simp [List.getElem?_set_self (List.getElem?_eq_some_iff.mp there).1]
  obtain ⟨r₂, reached₂, there₂, engines₂, _⟩ := reached₁.moves (a := .look r.calls.length) there₁ trivial (.look rfl)
  rw [hotPath, idle, engines₁] at there₂
  have size₂ : r₂.engines.entries.length = 1000 := by rw [engines₂, engines₁, size]
  obtain ⟨r₃, reached₃, there₃, _, _⟩ :=
    reached₂.moves (a := .count r.calls.length 1000) there₂ trivial (.count rfl size.le size₂.ge)
  have full : (1000 : Nat) ≥ Limits.maxTenants := le_refl _
  rw [bounded, if_pos full] at there₃
  have known : knows (fun _ => false) r (crowdName 0) = true := by
    unfold knows
    rw [crowdName_sanitized]
    exact decide_eq_true inside
  rcases claimed r₃ reached₃ _ _ there₃ known with ⟨key, outcome, _, returned, number, engine, failed, same, _⟩ | ⟨a, r', call', _, _, less⟩
  · cases returned
    cases same
  · cases less

end Registry

end TenantManager

end Deltat
