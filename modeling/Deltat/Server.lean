import Deltat.CompactionDurability
import Deltat.Credentials
import Deltat.RelationalTenant

/-! # Many clients and many tenants

One process serves every tenant of a data directory. A connection names a database and gives a
password, and from then on its statements go to the engine of the tenant that the name stands for.
Which of the handlers gets a message is decided by the protocol library.
-/

namespace Deltat

open Lib Limits

/-! ## Connections -/

/-- Equality whose timing does not tell where two byte strings differ. -/
def constantTimeEq (a b : List UInt8) : Bool :=
  let byteDiff := (List.range (max a.length b.length)).foldl
    (fun acc i => acc ||| ((a.getD i 0).toNat ^^^ (b.getD i 0).toNat)) 0
  ((a.length ^^^ b.length) ||| byteDiff) == 0

/-- Byte by byte, nothing is left over exactly when nothing differs. -/
theorem foldl_or_eq_zero {f : Nat → Nat} {is : List Nat} {acc : Nat} :
    is.foldl (fun acc i => acc ||| f i) acc = 0 ↔ acc = 0 ∧ ∀ i ∈ is, f i = 0 := by
  induction is generalizing acc with
  | nil => simp
  | cons i rest ih => rw [List.foldl_cons, ih, Nat.or_eq_zero_iff, List.forall_mem_cons, and_assoc]

theorem constantTimeEq_iff {a b : List UInt8} : constantTimeEq a b = true ↔ a = b := by
  simp only [constantTimeEq, beq_iff_eq, Nat.or_eq_zero_iff, Nat.xor_eq_zero_iff, foldl_or_eq_zero, true_and, List.mem_range]
  constructor
  · intro same
    obtain ⟨lengths, bytes⟩ := same
    apply List.ext_getElem lengths
    intro i first second
    have here := bytes i (by omega)
    rw [List.getD_eq_getElem _ _ first, List.getD_eq_getElem _ _ second] at here
    exact UInt8.toNat_inj.mp here
  · intro same
    subst same
    exact ⟨rfl, fun _ _ => rfl⟩

def asBytes (text : String) : List UInt8 := text.toByteArray.data.toList

theorem asBytes_inj {text text' : String} (same : asBytes text = asBytes text') : text = text' := by
  apply String.toByteArray_inj.mp
  exact ByteArray.ext (Array.toList_inj.mp same)

structure ServerConfig where
  /-- Unicode's table of letters and numbers outside ASCII. -/
  alphanumeric : Char → Bool
  tenantPasswords : DashMap String String
  password : String
  dataDir : String
  maxHoldTtlMs : Ms
  counterOfferLimit : Nat
  lib : Sql.WriteLibrary

/-- How far a connection is, with the database it has named. -/
inductive ConnectionState where
  | startup (database : Option String)
  | ready (database : Option String)
  | closed
  deriving DecidableEq

def ConnectionState.database : ConnectionState → Option String
  | startup database | ready database => database
  | closed => none

def ConnectionState.inStartup : ConnectionState → Bool
  | startup _ => true
  | ready _ | closed => false

/-- What a client sends. The protocol version of a startup may not be supported, a password may not decode. -/
inductive ClientMessage where
  | startup (database : Option String) (supported : Bool)
  | password (given : Option String)
  | query (statement : Sql.Statement)
  | other

/-- Who gets a message. -/
inductive Handler where
  | startup
  | statements
  | nobody
  deriving DecidableEq

inductive ServerReply where
  | cleartextPassword
  | authenticated
  | startupError
  | tenantErr (text : String)
  | statement (answer : Except WireError Response)

/-- During the startup of a connection its messages go to the startup handler, and afterwards its queries go
    to the handler of statements and nothing else to either. -/
structure Routes (route : Bool → ClientMessage → Handler) : Prop where
  startup : ∀ message, route true message = .startup
  statements : ∀ statement, route false (.query statement) = .statements
  others : ∀ message, (∀ statement, message ≠ .query statement) → route false message = .nobody

/-- Serve a message of the startup, or fail. Parameters that a second startup message leaves out stay. -/
def onStartup (c : ServerConfig) (session : ConnectionState) : ClientMessage → Option (Option ServerReply × ConnectionState)
  | .startup named supported =>
      if supported then some (some .cleartextPassword, .startup (named.or session.database)) else none
  | .password given => given.bind fun given =>
      let expected := getPassword c.alphanumeric c.tenantPasswords c.password session.database
      if constantTimeEq (asBytes expected) (asBytes given) then some (some .authenticated, .ready session.database) else none
  | .query _ | .other => some (none, session)

/-- A password opens a database when it is the one of its tenant. -/
theorem onStartup_password {c : ServerConfig} {session : ConnectionState} {given : String} :
    onStartup c session (.password (some given)) =
      if getPassword c.alphanumeric c.tenantPasswords c.password session.database = given then
        some (some .authenticated, .ready session.database)
      else none := by
  simp only [onStartup, Option.bind_some, constantTimeEq_iff]
  split
  · next same => rw [if_pos (asBytes_inj same)]
  · next apart => rw [if_neg fun same => apart (congrArg asBytes same)]

/-! ## The process -/

/-- The engines by the keys of their tenants, and the records of each file. -/
structure Server where
  clock : Ms
  engines : DashMap String Engine
  files : String → List Event
  sessions : Nat → ConnectionState

namespace Server

variable (c : ServerConfig) (s : Server)

def walPath (key : String) : String := TenantManager.walPath c.dataDir key

/-- Build a tenant's engine from its log. The sweep for orphans goes through the resources in some order. -/
def start (key : String) (order : List Ulid) : Engine :=
  .opened s.clock c.maxHoldTtlMs (s.files (walPath c key)) order

/-- The key and the engine of a tenant. -/
def getOrCreate (tenant : String) (order : List Ulid) : Except String (String × Engine) :=
  if tenant.utf8ByteSize > maxTenantNameLen then .error "tenant name too long"
  else
    match sanitize c.alphanumeric tenant with
    | .error error => .error error
    | .ok key =>
        match (s.engines.lookup key).filter (!·.failed) with
        | some engine => .ok (key, engine)
        | none => if s.engines.entries.length ≥ maxTenants then .error "too many tenants" else .ok (key, s.start c key order)

def resolveEngine (database : Option String) (order : List Ulid) : Except String (String × Engine) :=
  let db := TenantManager.tenantName database
  match sanitize c.alphanumeric db with
  | .error error => .error error
  | .ok _ => s.getOrCreate c db order

/-- The server after an engine has done something, with its log on its file. -/
def keep (key : String) (e : Engine) : Server :=
  { s with engines := s.engines.insert key e, files := Function.update s.files (walPath c key) e.log }

def doQuery (database : Option String) (statement : Sql.Statement) (order : List Ulid) : Option ServerReply × Server :=
  match s.resolveEngine c database order with
  | .error error => (some (.tenantErr error), s)
  | .ok (key, engine) =>
      let served := engine.serve c.lib c.counterOfferLimit (.statement s.clock statement)
      (served.1.map .statement, s.keep c key served.2)

def setSession (i : Nat) (session : ConnectionState) : Server := { s with sessions := Function.update s.sessions i session }

/-- Have a message handled. A connection whose startup fails is dropped. -/
def receive (route : Bool → ClientMessage → Handler) (i : Nat) (message : ClientMessage) (order : List Ulid) :
    Option ServerReply × Server :=
  let session := s.sessions i
  match session with
  | .closed => (none, s)
  | .startup _ | .ready _ =>
      match route session.inStartup message, message with
      | .startup, message =>
          match onStartup c session message with
          | some (reply, session) => (reply, s.setSession i session)
          | none => (some .startupError, if session.inStartup then s.setSession i .closed else s)
      | .statements, .query statement => s.doQuery c session.database statement order
      | .statements, _ | .nobody, _ => (none, s)

/-- What the background tasks of a tenant ask of its engine. -/
inductive Upkeep where
  | expireHold (id : Ulid)
  | collectGarbage (retentionMs : Ms)
  | compactWal (order : List Ulid)

def Upkeep.request (now : Ms) : Upkeep → TenantRequest
  | expireHold id => .expireHold id
  | collectGarbage retentionMs => .collectGarbage now retentionMs
  | compactWal order => .compactWal order

/-- The tasks of a stopped engine end on their own. -/
def maintain (key : String) (upkeep : Upkeep) : Server :=
  match (s.engines.lookup key).filter (!·.failed) with
  | some engine => s.keep c key (engine.serve c.lib c.counterOfferLimit (upkeep.request s.clock)).2
  | none => s

/-- The next flush of a tenant will fail. -/
def fault (key what : String) : Server :=
  match s.engines.lookup key with
  | some engine => { s with engines := s.engines.insert key { engine with flushFault := some what } }
  | none => s

inductive Action where
  | receive (i : Nat) (message : ClientMessage) (order : List Ulid)
  /-- A client is gone, or one of its deadlines has passed. -/
  | leave (i : Nat)
  | maintain (key : String) (upkeep : Upkeep)
  | tick (ms : Nat)
  | fault (key : String) (what : String)
  | restart

/-- What an action is answered, and the server after it. -/
def perform (route : Bool → ClientMessage → Handler) (s : Server) : Action → Option ServerReply × Server
  | .receive i message order => s.receive c route i message order
  | .leave i => (none, s.setSession i .closed)
  | .maintain key upkeep => (none, s.maintain c key upkeep)
  | .tick ms => (none, { s with clock := s.clock + ms })
  | .fault key what => (none, s.fault key what)
  | .restart => (none, { s with engines := ∅, sessions := fun _ => .startup none })

section

variable {c : ServerConfig} {s : Server} {route : Bool → ClientMessage → Handler}

/-! ### What happens to a message -/

theorem receive_closed {i : Nat} (session : s.sessions i = .closed) (message : ClientMessage) (order : List Ulid) :
    s.receive c route i message order = (none, s) := by
  simp only [receive, session]

theorem receive_startup (routes : Routes route) {i : Nat} {database : Option String} (session : s.sessions i = .startup database)
    (message : ClientMessage) (order : List Ulid) : s.receive c route i message order =
      match onStartup c (.startup database) message with
      | some (reply, session) => (reply, s.setSession i session)
      | none => (some .startupError, s.setSession i .closed) := by
  simp only [receive, session, ConnectionState.inStartup, routes.startup, if_true]

theorem receive_query (routes : Routes route) {i : Nat} {database : Option String} (session : s.sessions i = .ready database)
    (statement : Sql.Statement) (order : List Ulid) :
    s.receive c route i (.query statement) order = s.doQuery c database statement order := by
  simp only [receive, session, ConnectionState.inStartup, routes.statements, ConnectionState.database]

theorem receive_ready (routes : Routes route) {i : Nat} {database : Option String} (session : s.sessions i = .ready database)
    {message : ClientMessage} (other : ∀ statement, message ≠ .query statement) (order : List Ulid) :
    s.receive c route i message order = (none, s) := by
  simp only [receive, session, ConnectionState.inStartup, routes.others message other]

/-- The engine of a tenant is found as the manager of tenants finds it. -/
theorem getOrCreate_manager {m : TenantManager} (directory : m.dataDir = c.dataDir)
    (engines : ∀ key, m.engines.lookup key = (s.engines.lookup key).map fun e => ⟨walPath c key, e.failed⟩)
    (count : m.engines.entries.length = s.engines.entries.length) (tenant : String) (order : List Ulid) :
    (TenantManager.getOrCreate c.alphanumeric m m tenant (.ok ())).1 =
      (s.getOrCreate c tenant order).map fun found => ⟨walPath c found.1, found.2.failed⟩ := by
  unfold TenantManager.getOrCreate getOrCreate
  split
  · rfl
  · cases sanitize c.alphanumeric tenant with
    | error error => rfl
    | ok key =>
        have found := engines key
        simp only [found, count]
        cases stored : s.engines.lookup key with
        | none =>
            rw [stored] at found
            simp only [Option.map_none, Option.filter_none]
            split
            · rfl
            · simp only [TenantManager.enter, found, Option.map_none, TenantManager.start, directory]
              rfl
        | some e =>
            rw [stored] at found
            cases failed : e.failed with
            | false => simp [Option.filter_some, failed, Except.map]
            | true =>
                simp only [Option.map_some, Option.filter_some, failed, Bool.not_true, Bool.false_eq_true, if_false]
                split
                · rfl
                · simp only [TenantManager.enter, found, Option.map_some, failed, TenantManager.start, directory]
                  rfl

end

end Server

end Deltat
