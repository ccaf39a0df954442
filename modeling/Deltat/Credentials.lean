import Deltat.Lib.Machine
import Deltat.Lib.Outcome
import Deltat.Model

/-! # Who may open which tenant

The configuration, the login and the engine map each derive a key from untrusted text. All of
them sanitize it alike, so the password that a login is asked for belongs to the tenant it opens.
-/

namespace Deltat

open Lib

/-- `str::split_once`: what stands before the first separator, and after it. -/
def splitOnce (separator : Char) (text : List Char) : Option (List Char × List Char) :=
  match text.dropWhile (· ≠ separator) with
  | [] => none
  | _ :: after => some (text.takeWhile (· ≠ separator), after)

namespace Limits

def maxTenants : Nat := 1000
def maxTenantNameLen : Nat := 256

end Limits

/-! ## Keys -/

section Keys

-- Unicode's table of letters and numbers, of which only the part outside ASCII is open.
variable (alphanumeric : Char → Bool)

def isAlphanumeric (c : Char) : Bool := if c.val < 128 then c.isAlphanum else alphanumeric c

/-- Whether `sanitize` keeps a character. -/
def keeps (c : Char) : Bool := isAlphanumeric alphanumeric c || c == '_' || c == '-'

/-- Strip path-traversal characters. A name with nothing left is rejected. -/
def sanitize (tenant : String) : Except String String :=
  let safeName := String.ofList (tenant.toList.filter (keeps alphanumeric))
  if safeName.isEmpty then .error "empty tenant name" else .ok safeName

/-! ## Passwords -/

/-- One `tenant:password` entry. Errors name it by its position, never by its content. -/
def insertEntry (map : DashMap String String) (entry : Nat) (pair : List Char) : Except String (DashMap String String) :=
  match splitOnce ':' pair with
  | none => .error s!"tenant password entry {entry} is not tenant:password"
  | some (tenant, password) =>
      if password.isEmpty then .error s!"tenant password entry {entry} has an empty password"
      else
        match sanitize alphanumeric (String.ofList tenant) with
        | .error _ => .error s!"tenant password entry {entry} has an empty tenant name"
        | .ok key =>
            if key ∈ map then .error s!"duplicate tenant password entry for '{key}'"
            else .ok (map.insert key (String.ofList password))

def insertEntries (map : DashMap String String) (entry : Nat) : List (List Char) → Except String (DashMap String String)
  | [] => .ok map
  | pair :: rest =>
      match insertEntry alphanumeric map entry pair with
      | .ok map => insertEntries map (entry + 1) rest
      | .error error => .error error

/-- Parse comma-separated `tenant:password` pairs, split on the first colon. -/
def parseTenantPasswords (raw : String) : Except String (DashMap String String) :=
  insertEntries alphanumeric ∅ 1 (raw.toList.splitOn ',')

/-- The password a login must give: its tenant's own, or else the global one. -/
def getPassword (tenantPasswords : DashMap String String) (global : String) (database : Option String) : String :=
  let tenantPassword :=
    match sanitize alphanumeric (database.getD "default") with
    | .ok key => tenantPasswords.lookup key
    | .error _ => none
  tenantPassword.getD global

end Keys

/-- The password that the first entry of a key configures. -/
def configuredIn (alphanumeric : Char → Bool) (pairs : List (List Char)) (key : String) : Option String :=
  ((pairs.filterMap (splitOnce ':')).find? fun entry =>
    (sanitize alphanumeric (String.ofList entry.1)).toOption = some key).map fun entry => String.ofList entry.2

/-- The password that a configuration has for a key. -/
def configuredFor (alphanumeric : Char → Bool) (raw key : String) : Option String :=
  configuredIn alphanumeric (raw.toList.splitOn ',') key

section

variable {alphanumeric : Char → Bool} {map map' : DashMap String String} {entry : Nat} {pair : List Char}

theorem insertEntry_ok (inserted : insertEntry alphanumeric map entry pair = .ok map') :
    ∃ tenant password key, splitOnce ':' pair = some (tenant, password) ∧
      sanitize alphanumeric (String.ofList tenant) = .ok key ∧ key ∉ map ∧
      map' = map.insert key (String.ofList password) := by
  unfold insertEntry at inserted
  split at inserted
  · cases inserted
  · next tenant password named =>
      split at inserted
      · cases inserted
      · split at inserted
        · cases inserted
        · next key sanitized =>
            split at inserted
            · cases inserted
            · next fresh =>
                cases inserted
                exact ⟨tenant, password, key, named, sanitized, fresh, rfl⟩

theorem insertEntries_lookup {pairs : List (List Char)} (inserted : insertEntries alphanumeric map entry pairs = .ok map')
    (k : String) : map'.lookup k = (map.lookup k).or (configuredIn alphanumeric pairs k) := by
  induction pairs generalizing map entry with
  | nil =>
      cases inserted
      simp [configuredIn]
  | cons pair rest ih =>
      unfold insertEntries at inserted
      split at inserted
      · next after first =>
          obtain ⟨tenant, password, key, named, sanitized, fresh, rfl⟩ := insertEntry_ok first
          have head : configuredIn alphanumeric (pair :: rest) k =
              if key = k then some (String.ofList password) else configuredIn alphanumeric rest k := by
            unfold configuredIn
            rw [List.filterMap_cons_some named, List.find?_cons, sanitized]
            by_cases same : key = k
            · simp [Except.toOption, same]
            · simp [Except.toOption, same]
          rw [ih inserted, head]
          by_cases same : key = k
          · subst same
            rw [AList.lookup_insert, AList.lookup_eq_none.mpr fresh, if_pos rfl]
            rfl
          · rw [AList.lookup_insert_ne (Ne.symm same), if_neg same]
      · cases inserted

/-- An accepted configuration keeps every entry, under its sanitized name. -/
theorem parseTenantPasswords_lookup {raw : String} {passwords : DashMap String String}
    (parsed : parseTenantPasswords alphanumeric raw = .ok passwords) (k : String) :
    passwords.lookup k = configuredFor alphanumeric raw k := by
  rw [insertEntries_lookup parsed k, AList.lookup_empty, Option.none_or]
  rfl

end

/-! ## Engines -/

/-- An engine, by the file it appends to and whether a failed flush has stopped it. -/
structure TenantEngine where
  walPath : String
  failed : Bool
  deriving DecidableEq

/-- The engines of one data directory, each under its tenant's key. -/
structure TenantManager where
  engines : DashMap String TenantEngine
  dataDir : String

namespace TenantManager

/-- `Path::join`: an absolute path replaces the directory. -/
def join (dir file : String) : String := if file.toList.head? = some '/' then file else dir ++ "/" ++ file

def walPath (dataDir safeName : String) : String := join dataDir (safeName ++ ".wal")

def new (dataDir : String) : TenantManager := ⟨∅, dataDir⟩

variable (alphanumeric : Char → Bool)

/-- Build a tenant's engine from its log, which may fail. -/
def start (m : TenantManager) (safeName : String) (opened : Except String Unit) : Except String TenantEngine :=
  opened.map fun _ => ⟨walPath m.dataDir safeName, false⟩

/-- The entry of one tenant, which nobody else has meanwhile: an engine that runs, or one built now. -/
def enter (m : TenantManager) (safeName : String) (opened : Except String Unit) : Except String TenantEngine × TenantManager :=
  let build :=
    match m.start safeName opened with
    | .ok engine => (.ok engine, { m with engines := m.engines.insert safeName engine })
    | .error error => (.error error, m)
  match m.engines.lookup safeName with
  | some engine => if engine.failed then build else (.ok engine, m)
  | none => build

/-- Get or create an engine. Others may change the map between the first look at it, `seen`,
    and the entry. -/
def getOrCreate (seen m : TenantManager) (tenant : String) (opened : Except String Unit) :
    Except String TenantEngine × TenantManager :=
  if tenant.utf8ByteSize > Limits.maxTenantNameLen then (.error "tenant name too long", m)
  else
    match sanitize alphanumeric tenant with
    | .error error => (.error error, m)
    | .ok safeName =>
        match (seen.engines.lookup safeName).filter (!·.failed) with
        | some engine => (.ok engine, m)
        | none =>
            if seen.engines.entries.length ≥ Limits.maxTenants then (.error "too many tenants", m)
            else m.enter safeName opened

def tenantName (database : Option String) : String := database.getD "default"

/-- A connection's engine, and the tenant label of its metrics. -/
def resolveEngine (seen m : TenantManager) (database : Option String) (opened : Except String Unit) :
    Except String (TenantEngine × String) × TenantManager :=
  let db := tenantName database
  match sanitize alphanumeric db with
  | .error error => (.error error, m)
  | .ok tenant =>
      let reached := getOrCreate alphanumeric seen m db opened
      (reached.1.map (·, tenant), reached.2)

/-! ## Runs -/

/-- What happens to the map: somebody takes the entry of a tenant, or a failed flush stops one. -/
inductive Action where
  | enter (database : Option String) (opened : Except String Unit)
  | stop (key : String)

def step (m : TenantManager) : Action → Option TenantManager
  | .enter database opened => (sanitize alphanumeric (tenantName database)).toOption.map fun key => (m.enter key opened).2
  | .stop key => (m.engines.lookup key).map fun engine =>
      { m with engines := m.engines.insert key { engine with failed := true } }

/-- The managers of a data directory that any connections and failures lead to. -/
def Reached (dataDir : String) (m : TenantManager) : Prop :=
  Machine.Reaches (step alphanumeric) (fun _ _ => True) (.new dataDir) m

section

variable {alphanumeric : Char → Bool} {dataDir : String} {seen m m' : TenantManager}

/-- A connection leaves the map alone or takes an entry. -/
theorem resolveEngine_step {database : Option String} {opened : Except String Unit}
    {outcome : Except String (TenantEngine × String)}
    (resolved : resolveEngine alphanumeric seen m database opened = (outcome, m')) :
    m' = m ∨ step alphanumeric m (.enter database opened) = some m' := by
  unfold resolveEngine at resolved
  simp only at resolved
  split at resolved
  · exact .inl (Prod.mk.inj resolved).2.symm
  · next key sanitized =>
      have after := (Prod.mk.inj resolved).2
      rw [getOrCreate, sanitized] at after
      simp only at after
      split at after
      · exact .inl after.symm
      · split at after
        · exact .inl after.symm
        · split at after
          · exact .inl after.symm
          · right
            rw [step, sanitized, ← after]
            rfl

/-- An engine is stored under a key that sanitizing gave, on the file of that key. -/
structure Filed (alphanumeric : Char → Bool) (dataDir : String) (m : TenantManager) : Prop where
  directory : m.dataDir = dataDir
  keys : ∀ k engine, m.engines.lookup k = some engine →
    (∃ tenant, sanitize alphanumeric tenant = .ok k) ∧ engine.walPath = walPath dataDir k

theorem enter_filed {key tenant : String} {opened : Except String Unit} (filed : m.Filed alphanumeric dataDir)
    (sanitized : sanitize alphanumeric tenant = .ok key) : (m.enter key opened).2.Filed alphanumeric dataDir := by
  have built : ∀ engine, m.start key opened = .ok engine →
      TenantManager.Filed alphanumeric dataDir { m with engines := m.engines.insert key engine } := by
    intro engine started
    refine ⟨filed.directory, fun k stored found => ?_⟩
    by_cases same : k = key
    · subst same
      simp only [AList.lookup_insert, Option.some.injEq] at found
      refine ⟨⟨tenant, sanitized⟩, ?_⟩
      unfold start at started
      rw [← found]
      cases opened with
      | ok _ =>
          cases started
          simp only [filed.directory]
      | error _ => cases started
    · simp only [AList.lookup_insert_ne same] at found
      exact filed.keys k stored found
  unfold enter
  simp only
  cases started : m.start key opened <;> cases m.engines.lookup key with
  | none => first | exact built _ started | exact filed
  | some engine =>
      simp only
      split
      · first | exact built _ started | exact filed
      · exact filed

theorem Reached.filed (reached : m.Reached alphanumeric dataDir) : m.Filed alphanumeric dataDir := by
  apply Machine.Reaches.invariant reached
  · exact ⟨rfl, fun k engine found => by cases found⟩
  · intro m a m' filed _ taken
    cases a with
    | enter database opened =>
        obtain ⟨key, sanitized, rfl⟩ := Option.map_eq_some_iff.mp taken
        cases outcome : sanitize alphanumeric (tenantName database) with
        | ok safeName =>
            rw [outcome] at sanitized
            cases sanitized
            exact enter_filed filed outcome
        | error error =>
            rw [outcome] at sanitized
            cases sanitized
    | stop key =>
        obtain ⟨engine, running, rfl⟩ := Option.map_eq_some_iff.mp taken
        refine ⟨filed.directory, fun k stored found => ?_⟩
        by_cases same : k = key
        · subst same
          simp only [AList.lookup_insert, Option.some.injEq] at found
          rw [← found]
          exact filed.keys k engine running
        · simp only [AList.lookup_insert_ne same] at found
          exact filed.keys k stored found

theorem sanitize_keeps {alphanumeric : Char → Bool} {tenant key : String} (sanitized : sanitize alphanumeric tenant = .ok key) :
    ∀ c ∈ key.toList, keeps alphanumeric c = true := by
  unfold sanitize at sanitized
  simp only at sanitized
  split at sanitized
  · cases sanitized
  · cases sanitized
    simp

/-- A key names a file inside the data directory. -/
theorem walPath_eq {tenant key : String} (sanitized : sanitize alphanumeric tenant = .ok key) :
    walPath dataDir key = dataDir ++ "/" ++ (key ++ ".wal") := by
  apply if_neg
  intro absolute
  cases chars : key.toList with
  | nil => simp [chars] at absolute
  | cons c rest =>
      have kept := sanitize_keeps sanitized c (by rw [chars]; exact List.mem_cons_self)
      have slash : c = '/' := by simpa [chars] using absolute
      rw [slash] at kept
      revert kept
      simp [keeps, isAlphanumeric]

/-- Different keys name different files. -/
theorem walPath_inj {tenant tenant' key key' : String} (sanitized : sanitize alphanumeric tenant = .ok key)
    (sanitized' : sanitize alphanumeric tenant' = .ok key') (same : walPath dataDir key = walPath dataDir key') : key = key' := by
  rw [walPath_eq sanitized, walPath_eq sanitized'] at same
  have chars := congrArg String.toList same
  simp only [String.toList_append] at chars
  apply String.toList_inj.mp
  exact List.append_cancel_right (List.append_cancel_left chars)

theorem start_walPath (filed : m.Filed alphanumeric dataDir) {key : String} {opened : Except String Unit}
    {engine : TenantEngine} (started : m.start key opened = .ok engine) : engine.walPath = walPath dataDir key := by
  unfold start at started
  cases opened with
  | ok _ =>
      cases started
      rw [← filed.directory]
  | error _ => cases started

theorem enter_walPath (filed : m.Filed alphanumeric dataDir) {key : String} {opened : Except String Unit}
    {engine : TenantEngine} (entered : (m.enter key opened).1 = .ok engine) : engine.walPath = walPath dataDir key := by
  have built : ∀ engine, m.start key opened = .ok engine → engine.walPath = walPath dataDir key :=
    fun engine started => start_walPath filed started
  unfold enter at entered
  simp only at entered
  split at entered
  · next running found =>
      split at entered
      · split at entered
        · next fresh started =>
            cases entered
            exact built _ started
        · cases entered
      · cases entered
        exact (filed.keys key _ found).2
  · split at entered
    · next fresh started =>
        cases entered
        exact built _ started
    · cases entered

/-- The engine a connection gets is on the file of its sanitized name. -/
theorem resolveEngine_walPath (seenFiled : seen.Filed alphanumeric dataDir) (filed : m.Filed alphanumeric dataDir)
    {database : Option String} {opened : Except String Unit} {engine : TenantEngine} {label : String}
    (resolved : resolveEngine alphanumeric seen m database opened = (.ok (engine, label), m')) :
    ∃ key, sanitize alphanumeric (tenantName database) = .ok key ∧ engine.walPath = walPath dataDir key := by
  unfold resolveEngine at resolved
  simp only at resolved
  split at resolved
  · cases resolved
  · next key sanitized =>
      obtain ⟨engine', reached, same⟩ := Outcome.map_ok.mp (Prod.mk.inj resolved).1
      cases same
      refine ⟨label, sanitized, ?_⟩
      rw [getOrCreate, sanitized] at reached
      simp only at reached
      split at reached
      · cases reached
      · split at reached
        · next running found =>
            cases reached
            exact (seenFiled.keys label _ (Option.mem_filter_iff.mp found).1).2
        · split at reached
          · cases reached
          · exact enter_walPath filed reached

/-- The password that a connection must give is the one configured for the tenant it reaches, or
    the global one when none is: the tenant's key decides, not the spelling. And two tenants'
    engines are on two files. -/
theorem password_of_tenant {raw : String} {passwords : DashMap String String}
    (parsed : parseTenantPasswords alphanumeric raw = .ok passwords) (global : String)
    (seenReached : seen.Reached alphanumeric dataDir) (reached : m.Reached alphanumeric dataDir)
    {database : Option String} {opened : Except String Unit} {engine : TenantEngine} {label : String}
    (resolved : resolveEngine alphanumeric seen m database opened = (.ok (engine, label), m'))
    {holder : TenantManager} (held : holder.Reached alphanumeric dataDir) {k : String}
    (stored : holder.engines.lookup k = some engine) :
    getPassword alphanumeric passwords global database = (configuredFor alphanumeric raw k).getD global ∧
      ∀ k' other, holder.engines.lookup k' = some other → k' ≠ k → other.walPath ≠ engine.walPath := by
  obtain ⟨⟨tenant, sanitized⟩, onFile⟩ := held.filed.keys k engine stored
  constructor
  · obtain ⟨key, named, onFile'⟩ := resolveEngine_walPath seenReached.filed reached.filed resolved
    have same : key = k := walPath_inj named sanitized (onFile'.symm.trans onFile)
    subst same
    unfold getPassword
    change sanitize alphanumeric (database.getD "default") = .ok key at named
    simp only [named, parseTenantPasswords_lookup parsed]
  · intro k' other found different same
    obtain ⟨⟨tenant', sanitized'⟩, onFile'⟩ := held.filed.keys k' other found
    exact different (walPath_inj sanitized' sanitized (onFile'.symm.trans (same.trans onFile)))

end

/-- A manager with one tenant, built by a connection that spelled its name with a bang. -/
def acmeOnly : TenantManager := ((TenantManager.new "data").enter "acme" (.ok ())).2

theorem acmeOnly_reached : acmeOnly.Reached (fun _ => false) "data" :=
  .next (.enter (some "acme!") (.ok ())) .start trivial rfl

theorem acme_parsed : ∃ passwords, parseTenantPasswords (fun _ => false) "acme:secret" = .ok passwords := by
  cases parsed : parseTenantPasswords (fun _ => false) "acme:secret" with
  | ok passwords => exact ⟨passwords, rfl⟩
  | error error =>
      have accepted : (parseTenantPasswords (fun _ => false) "acme:secret").toOption.isSome = true := by decide +kernel
      rw [parsed] at accepted
      cases accepted

/-- The bang does not dodge the tenant's password. -/
theorem acme_password : ∃ passwords, parseTenantPasswords (fun _ => false) "acme:secret" = .ok passwords ∧
    getPassword (fun _ => false) passwords "shared" (some "acme!") = "secret" := by
  obtain ⟨passwords, parsed⟩ := acme_parsed
  refine ⟨passwords, parsed, ?_⟩
  have resolved : resolveEngine (fun _ => false) (new "data") (new "data") (some "acme!") (.ok ()) =
      (.ok (⟨walPath "data" "acme", false⟩, "acme"), acmeOnly) := rfl
  have stored : acmeOnly.engines.lookup "acme" = some ⟨walPath "data" "acme", false⟩ := rfl
  have asked := (password_of_tenant parsed "shared" .start .start resolved acmeOnly_reached stored).1
  have configured : configuredFor (fun _ => false) "acme:secret" "acme" = some "secret" := by decide +kernel
  rw [configured] at asked
  exact asked

end TenantManager

end Deltat
