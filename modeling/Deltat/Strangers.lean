import Deltat.Server

/-! # What strangers learn of a tenant

As long as nobody gives a tenant's password for a database of it, no connection can tell what its
log, its engine and its background tasks do: two servers that differ in that tenant only answer
everybody alike, whatever fails and however often they restart.
-/

namespace Deltat

open Lib Lib.Conversations Sql

namespace Server

variable {c : ServerConfig} {route : Bool → ClientMessage → Handler} {k : String} {s u : Server} {a : Action}

/-- A key that some database name stands for. -/
def IsKey (c : ServerConfig) (k : String) : Prop := ∃ tenant, sanitize c.alphanumeric tenant = .ok k

/-- A database of a tenant. -/
def Names (c : ServerConfig) (database : Option String) (k : String) : Prop :=
  sanitize c.alphanumeric (TenantManager.tenantName database) = .ok k

/-- The tenant's own password, or the global one. -/
def passwordOf (c : ServerConfig) (k : String) : String := (c.tenantPasswords.lookup k).getD c.password

/-- Whether a connection gives the password of a tenant for a database of it. -/
def Admits (c : ServerConfig) (k : String) (s : Server) (a : Action) : Prop :=
  ∃ i order, a = .receive i (.password (some (passwordOf c k))) order ∧ s.sessions i ≠ .closed ∧
    Names c (s.sessions i).database k

/-- No connection may send statements to the tenant. -/
def Strangers (c : ServerConfig) (k : String) (s : Server) : Prop :=
  ∀ i database, s.sessions i = .ready database → ¬ Names c database k

/-- Two servers alike in everything but one tenant, which both have or neither has. -/
structure AlikeBut (c : ServerConfig) (k : String) (s u : Server) : Prop where
  clock : s.clock = u.clock
  sessions : s.sessions = u.sessions
  present : k ∈ s.engines ↔ k ∈ u.engines
  engines : ∀ key, key ≠ k → s.engines.lookup key = u.engines.lookup key
  files : ∀ key, IsKey c key → key ≠ k → s.files (walPath c key) = u.files (walPath c key)

theorem AlikeBut.refl (s : Server) : s.AlikeBut c k s := ⟨rfl, rfl, Iff.rfl, fun _ _ => rfl, fun _ _ _ => rfl⟩

theorem AlikeBut.symm (alike : s.AlikeBut c k u) : u.AlikeBut c k s where
  clock := alike.clock.symm
  sessions := alike.sessions.symm
  present := alike.present.symm
  engines key apart := (alike.engines key apart).symm
  files key isKey apart := (alike.files key isKey apart).symm

theorem AlikeBut.trans {t : Server} (alike : s.AlikeBut c k t) (after : t.AlikeBut c k u) : s.AlikeBut c k u where
  clock := alike.clock.trans after.clock
  sessions := alike.sessions.trans after.sessions
  present := alike.present.trans after.present
  engines key apart := (alike.engines key apart).trans (after.engines key apart)
  files key isKey apart := (alike.files key isKey apart).trans (after.files key isKey apart)

theorem passwordOf_names {database : Option String} (names : Names c database k) :
    getPassword c.alphanumeric c.tenantPasswords c.password database = passwordOf c k := by
  unfold Names TenantManager.tenantName at names
  simp only [getPassword, passwordOf, names]

theorem AlikeBut.mem (alike : s.AlikeBut c k u) (key : String) : key ∈ s.engines ↔ key ∈ u.engines := by
  by_cases same : key = k
  · exact same ▸ alike.present
  · rw [← AList.lookup_isSome, ← AList.lookup_isSome, alike.engines key same]

theorem AlikeBut.count (alike : s.AlikeBut c k u) : s.engines.entries.length = u.engines.entries.length := by
  have perm : s.engines.keys.Perm u.engines.keys :=
    (List.perm_ext_iff_of_nodup s.engines.keys_nodup u.engines.keys_nodup).mpr alike.mem
  simpa [AList.keys, List.keys] using perm.length_eq

theorem files_apart (isKey : IsKey c k) {key : String} (isKey' : IsKey c key) (apart : key ≠ k) :
    walPath c key ≠ walPath c k := by
  intro same
  obtain ⟨tenant, sanitized⟩ := isKey
  obtain ⟨tenant', sanitized'⟩ := isKey'
  exact apart (TenantManager.walPath_inj sanitized' sanitized same)

/-! ## Steps -/

/-- What the same engine does on both keeps the servers alike. -/
theorem AlikeBut.keep (alike : s.AlikeBut c k u) (key : String) (e : Engine) :
    (s.keep c key e).AlikeBut c k (u.keep c key e) where
  clock := alike.clock
  sessions := alike.sessions
  present := by simp only [Server.keep, AList.mem_insert, alike.present]
  engines key' apart := by
    simp only [Server.keep]
    by_cases same : key' = key
    · rw [same, AList.lookup_insert, AList.lookup_insert]
    · rw [AList.lookup_insert_ne same, AList.lookup_insert_ne same, alike.engines key' apart]
  files key' isKey apart := by
    simp only [Server.keep, Function.update_apply, alike.files key' isKey apart]

/-- What an engine of the tenant does is seen by nobody else. -/
theorem alikeBut_keep (isKey : IsKey c k) (present : k ∈ s.engines) (e : Engine) : s.AlikeBut c k (s.keep c k e) where
  clock := rfl
  sessions := rfl
  present := by simp only [Server.keep, AList.mem_insert, true_or, present]
  engines key apart := by simp only [Server.keep, AList.lookup_insert_ne apart]
  files key other apart := by simp only [Server.keep, Function.update_of_ne (files_apart isKey other apart)]

theorem alikeBut_maintain (isKey : IsKey c k) (upkeep : Upkeep) : s.AlikeBut c k (s.maintain c k upkeep) := by
  unfold Server.maintain
  cases found : (s.engines.lookup k).filter (!·.failed) with
  | none => exact .refl s
  | some e =>
      apply alikeBut_keep isKey
      have inside := (Option.filter_eq_some_iff.mp found).1
      exact AList.lookup_isSome.mp (Option.isSome_of_mem inside)

theorem alikeBut_fault (what : String) : s.AlikeBut c k (s.fault k what) := by
  unfold Server.fault
  cases found : s.engines.lookup k with
  | none => exact .refl s
  | some e =>
      refine ⟨rfl, rfl, ?_, fun key apart => ?_, fun _ _ _ => rfl⟩
      · simp only [AList.mem_insert, true_or, iff_true]
        exact AList.lookup_isSome.mp (Option.isSome_of_mem found)
      · simp only [AList.lookup_insert_ne apart]

theorem AlikeBut.setSession (alike : s.AlikeBut c k u) (i : Nat) (session : ConnectionState) :
    (s.setSession i session).AlikeBut c k (u.setSession i session) where
  clock := alike.clock
  sessions := by simp only [Server.setSession, alike.sessions]
  present := alike.present
  engines := alike.engines
  files := alike.files

theorem Strangers.setSession (strangers : s.Strangers c k) (i : Nat) {session : ConnectionState}
    (stranger : ∀ database, session = .ready database → ¬ Names c database k) : (s.setSession i session).Strangers c k := by
  intro j database ready
  simp only [Server.setSession, Function.update_apply] at ready
  split at ready
  · exact stranger database ready
  · exact strangers j database ready

theorem Strangers.kept (strangers : s.Strangers c k) (sessions : u.sessions = s.sessions) : u.Strangers c k := by
  intro i database ready
  exact strangers i database (sessions ▸ ready)

/-- A message of the startup makes nobody a client of the tenant but by its password. -/
theorem Strangers.onStartup {session session' : ConnectionState} {message : ClientMessage} {reply : Option ServerReply}
    (stranger : ∀ database, session = .ready database → ¬ Names c database k)
    (closed : message = .password (some (passwordOf c k)) → ¬ Names c session.database k)
    (handled : Deltat.onStartup c session message = some (reply, session')) (database : Option String)
    (ready : session' = .ready database) : ¬ Names c database k := by
  subst ready
  cases message with
  | startup named supported =>
      simp only [Deltat.onStartup] at handled
      split at handled <;> cases handled
  | password given =>
      cases given with
      | none => cases handled
      | some given =>
          rw [onStartup_password] at handled
          split at handled
          · next matching =>
              cases handled
              intro names
              rw [passwordOf_names names] at matching
              exact closed (by rw [matching]) names
          · cases handled
  | query | other =>
      cases handled
      exact stranger database rfl

/-- An engine of another tenant is found by both servers or by neither. -/
theorem AlikeBut.resolveEngine (alike : s.AlikeBut c k u) {database : Option String} (apart : ¬ Names c database k)
    (order : List Ulid) : s.resolveEngine c database order = u.resolveEngine c database order := by
  unfold Server.resolveEngine getOrCreate
  simp only
  cases named : sanitize c.alphanumeric (TenantManager.tenantName database) with
  | error error => rfl
  | ok key =>
      have other : key ≠ k := fun same => apart (same ▸ named)
      simp only [alike.engines key other, alike.count, start, alike.files key ⟨_, named⟩ other, alike.clock]

theorem AlikeBut.doQuery (alike : s.AlikeBut c k u) {database : Option String} (apart : ¬ Names c database k)
    (statement : Sql.Statement) (order : List Ulid) :
    (s.doQuery c database statement order).1 = (u.doQuery c database statement order).1 ∧
      (s.doQuery c database statement order).2.AlikeBut c k (u.doQuery c database statement order).2 ∧
      (s.doQuery c database statement order).2.sessions = s.sessions := by
  unfold Server.doQuery
  rw [← alike.resolveEngine apart order]
  cases s.resolveEngine c database order with
  | error error => exact ⟨rfl, alike, rfl⟩
  | ok both =>
      obtain ⟨key, e⟩ := both
      rw [alike.clock]
      exact ⟨rfl, alike.keep key _, rfl⟩

theorem AlikeBut.receive (routes : Routes route) (alike : s.AlikeBut c k u) (strangers : s.Strangers c k) (i : Nat)
    (message : ClientMessage) (order : List Ulid) (closed : ¬ s.Admits c k (.receive i message order)) :
    (s.receive c route i message order).1 = (u.receive c route i message order).1 ∧
      (s.receive c route i message order).2.AlikeBut c k (u.receive c route i message order).2 ∧
      (s.receive c route i message order).2.Strangers c k := by
  have same : s.sessions i = u.sessions i := congrFun alike.sessions i
  cases session : s.sessions i with
  | closed =>
      rw [receive_closed session, receive_closed (same ▸ session)]
      exact ⟨rfl, alike, strangers⟩
  | startup database =>
      rw [receive_startup routes session, receive_startup routes (same ▸ session)]
      cases handled : Deltat.onStartup c (.startup database) message with
      | none => exact ⟨rfl, alike.setSession i .closed, strangers.setSession i fun _ ready => by cases ready⟩
      | some both =>
          obtain ⟨reply, session'⟩ := both
          refine ⟨rfl, alike.setSession i session', strangers.setSession i ?_⟩
          apply Strangers.onStartup (fun _ ready => by cases ready) (fun given names => closed ?_) handled
          subst given
          exact ⟨i, order, rfl, by rw [session]; simp, by rw [session]; exact names⟩
  | ready database =>
      have apart := strangers i database session
      by_cases query : ∃ statement, message = .query statement
      · obtain ⟨statement, rfl⟩ := query
        rw [receive_query routes session, receive_query routes (same ▸ session)]
        obtain ⟨reply, after, sessions⟩ := alike.doQuery apart statement order
        exact ⟨reply, after, strangers.kept sessions⟩
      · have other : ∀ statement, message ≠ .query statement := fun statement same => query ⟨statement, same⟩
        rw [receive_ready routes session other, receive_ready routes (same ▸ session) other]
        exact ⟨rfl, alike, strangers⟩

/-- The background tasks of a tenant answer nobody. -/
theorem AlikeBut.maintain (isKey : IsKey c k) (alike : s.AlikeBut c k u) (key : String) (upkeep : Upkeep) :
    (s.maintain c key upkeep).AlikeBut c k (u.maintain c key upkeep) ∧ (s.maintain c key upkeep).sessions = s.sessions := by
  have sessions : (s.maintain c key upkeep).sessions = s.sessions := by
    unfold Server.maintain
    split <;> rfl
  refine ⟨?_, sessions⟩
  by_cases same : key = k
  · exact same ▸ ((alikeBut_maintain isKey upkeep).symm.trans alike).trans (alikeBut_maintain isKey upkeep)
  · unfold Server.maintain
    rw [alike.engines key same, alike.clock]
    cases (u.engines.lookup key).filter (!·.failed) with
    | none => exact alike
    | some e => exact alike.keep key _

theorem AlikeBut.fault (alike : s.AlikeBut c k u) (key what : String) :
    (s.fault key what).AlikeBut c k (u.fault key what) ∧ (s.fault key what).sessions = s.sessions := by
  have sessions : (s.fault key what).sessions = s.sessions := by
    unfold Server.fault
    split <;> rfl
  refine ⟨?_, sessions⟩
  by_cases same : key = k
  · exact same ▸ ((alikeBut_fault what).symm.trans alike).trans (alikeBut_fault what)
  · unfold Server.fault
    rw [alike.engines key same]
    cases u.engines.lookup key with
    | none => exact alike
    | some e =>
        refine ⟨alike.clock, alike.sessions, ?_, fun key' apart => ?_, alike.files⟩
        · simp only [AList.mem_insert, alike.present]
        · by_cases here : key' = key
          · rw [here, AList.lookup_insert, AList.lookup_insert]
          · rw [AList.lookup_insert_ne here, AList.lookup_insert_ne here, alike.engines key' apart]

/-- Whatever happens but the opening of the tenant. -/
theorem AlikeBut.perform (routes : Routes route) (isKey : IsKey c k) (alike : s.AlikeBut c k u) (strangers : s.Strangers c k)
    (closed : ¬ s.Admits c k a) : (s.perform c route a).1 = (u.perform c route a).1 ∧
      (s.perform c route a).2.AlikeBut c k (u.perform c route a).2 ∧ (s.perform c route a).2.Strangers c k := by
  cases a with
  | receive i message order => exact alike.receive routes strangers i message order closed
  | leave i => exact ⟨rfl, alike.setSession i .closed, strangers.setSession i fun _ ready => by cases ready⟩
  | tick ms =>
      refine ⟨rfl, ⟨?_, alike.sessions, alike.present, alike.engines, alike.files⟩, strangers⟩
      simp only [Server.perform, alike.clock]
  | restart =>
      refine ⟨rfl, ⟨alike.clock, rfl, Iff.rfl, fun _ _ => rfl, alike.files⟩, fun i database ready => ?_⟩
      cases ready
  | maintain key upkeep =>
      obtain ⟨after, sessions⟩ := alike.maintain isKey key upkeep
      exact ⟨rfl, after, strangers.kept sessions⟩
  | fault key what =>
      obtain ⟨after, sessions⟩ := alike.fault key what
      exact ⟨rfl, after, strangers.kept sessions⟩

/-- No connection learns anything of a tenant whose password nobody gives for it, whatever its engine does. -/
theorem strangers_learn_nothing (routes : Routes route) (isKey : IsKey c k) (alike : s.AlikeBut c k u)
    (strangers : s.Strangers c k) {actions : List Action}
    (closed : Along (perform c route) (fun s a => ¬ s.Admits c k a) s actions) :
    (converse (perform c route) s actions).1 = (converse (perform c route) u actions).1 ∧
      (converse (perform c route) s actions).2.AlikeBut c k (converse (perform c route) u actions).2 := by
  have served (s u : Server) (a : Action) (both : s.AlikeBut c k u ∧ s.Strangers c k) (allowed : ¬ s.Admits c k a) :
      (perform c route s a).1 = (perform c route u a).1 ∧ (perform c route s a).2.AlikeBut c k (perform c route u a).2 ∧
        (perform c route s a).2.Strangers c k := both.1.perform routes isKey both.2 allowed
  obtain ⟨answers, after, _⟩ := along_alike served actions ⟨alike, strangers⟩ closed
  exact ⟨answers, after⟩

/-- Two tenants, one with a password of its own. -/
def twoTenants : ServerConfig where
  alphanumeric := fun _ => false
  tenantPasswords := (∅ : DashMap String String).insert "acme" "secret"
  password := "global"
  dataDir := "data"
  maxHoldTtlMs := 1000
  counterOfferLimit := 3
  lib := plainWrites

def emptyAcme : Server where
  clock := 0
  engines := (∅ : DashMap String Engine).insert "acme" (Engine.start 0 1000)
  files := fun _ => []
  sessions := fun _ => .startup none

/-- The same server after a resource of one tenant. -/
def bookedAcme : Server :=
  emptyAcme.keep twoTenants "acme" (converse (Engine.serve plainWrites 3) (Engine.start 0 1000) bookingSession).2

def documentedRoute (inStartup : Bool) : ClientMessage → Handler
  | .query _ => if inStartup then .startup else .statements
  | .startup _ _ | .password _ | .other => if inStartup then .startup else .nobody

theorem documentedRoute_routes : Routes documentedRoute where
  startup message := by cases message <;> rfl
  statements _ := rfl
  others message other := by
    cases message with
    | query statement => exact absurd rfl (other statement)
    | startup | password | other => rfl

/-- Somebody works at the other tenant and tries the global password for this one. -/
def strangerActions : List Action :=
  [.receive 0 (.startup (some "globex") true) [], .receive 0 (.password (some "global")) [],
    .receive 0 (.query (.write (insertInto "resources" ["id"] [firstId]))) [], .maintain "acme" (.compactWal []),
    .receive 1 (.startup (some "acme!") true) [], .receive 1 (.password (some "global")) [], .fault "acme" "disk full",
    .restart]

theorem strangerActions_learn_nothing : IsKey twoTenants "acme" ∧
    (converse (perform twoTenants documentedRoute) emptyAcme strangerActions).1 =
      (converse (perform twoTenants documentedRoute) bookedAcme strangerActions).1 ∧
    (converse (perform twoTenants documentedRoute) emptyAcme strangerActions).2.AlikeBut twoTenants "acme"
      (converse (perform twoTenants documentedRoute) bookedAcme strangerActions).2 := by
  have isKey : IsKey twoTenants "acme" := ⟨"acme", by decide⟩
  have own : passwordOf twoTenants "acme" = "secret" := by decide
  have present : "acme" ∈ emptyAcme.engines := (AList.mem_insert _).mpr (.inl rfl)
  refine ⟨isKey, strangers_learn_nothing documentedRoute_routes isKey (alikeBut_keep isKey present _) ?_ ?_⟩
  · intro i database ready
    cases ready
  · apply along_of_mem
    intro a inside s admits
    obtain ⟨i, order, same, _⟩ := admits
    subst same
    simp [strangerActions, own] at inside

end Server

end Deltat
