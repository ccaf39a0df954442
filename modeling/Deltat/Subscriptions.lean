import Mathlib.Data.Finset.Card
import Mathlib.Data.Finset.Filter
import Mathlib.Logic.Function.Basic
import Deltat.Model
import Deltat.Lib.Machine

/-! # LISTEN and UNLISTEN on a connection

Statements keep the set of resources listened to and queue commands. The connection's loop
turns each command into a forwarder or takes one away. Meanwhile others delete resources,
create them again under the same id, and listen themselves.
-/

namespace Deltat

namespace Limits

def maxSubscriptionsPerConnection : Nat := 100

end Limits

open Limits

/-- The open broadcast channels, told apart by when they were opened. -/
structure NotifyHub where
  channels : Ulid → Option Nat
  opened : Nat

namespace NotifyHub

/-- The channel of a resource, opened if it is not. -/
def subscribe (hub : NotifyHub) (rid : Ulid) : Nat × NotifyHub :=
  match hub.channels rid with
  | some channel => (channel, hub)
  | none => (hub.opened, ⟨Function.update hub.channels rid (some hub.opened), hub.opened + 1⟩)

def remove (hub : NotifyHub) (rid : Ulid) : NotifyHub :=
  { hub with channels := Function.update hub.channels rid none }

end NotifyHub

/-- What a statement leaves to the loop. A subscription also says which resource of that id its
    LISTEN has found, but the loop does not look at it. -/
inductive SubscriptionCommand where
  | subscribe (rid : Ulid) (found : Nat)
  | unsubscribe (rid : Ulid)
  | unsubscribeAll
  deriving DecidableEq

/-- A task that forwards what a channel carries. -/
structure Forwarder where
  channel : Nat
  finished : Bool
  deriving DecidableEq

structure Subscriptions where
  /-- The resources of the tenant, told apart by when they were created. -/
  resources : Ulid → Option Nat
  created : Nat
  hub : NotifyHub
  /-- What the statements have kept. -/
  listening : Finset Ulid
  commands : List SubscriptionCommand
  forwarders : List (Ulid × Forwarder)
  /-- What the loop is about to subscribe to, its checks passed. -/
  subscribing : Option (Ulid × Nat)
  /-- Whether the last acknowledged statement on a resource is a LISTEN since its creation. -/
  listened : Ulid → Bool

namespace Subscriptions

/-- A new connection to an empty tenant. -/
def idle : Subscriptions := ⟨fun _ => none, 0, ⟨fun _ => none, 0⟩, ∅, [], [], none, fun _ => false⟩

variable (s : Subscriptions)

/-! ## What others do -/

def create (rid : Ulid) : Option Subscriptions :=
  match s.resources rid with
  | none => some { s with
      resources := Function.update s.resources rid (some s.created)
      created := s.created + 1
      listened := Function.update s.listened rid false }
  | some _ => none

/-- A deletion closes the channel. -/
def delete (rid : Ulid) : Option Subscriptions :=
  match s.resources rid with
  | some _ => some { s with resources := Function.update s.resources rid none, hub := s.hub.remove rid }
  | none => none

/-- Another connection subscribes. -/
def subscribeOther (rid : Ulid) : Subscriptions := { s with hub := (s.hub.subscribe rid).2 }

/-- A forwarder has forwarded all that a closed channel has carried. -/
def finish (rid : Ulid) (channel : Nat) : Option Subscriptions :=
  if (rid, ⟨channel, false⟩) ∈ s.forwarders ∧ s.hub.channels rid ≠ some channel then
    some { s with forwarders := s.forwarders.map fun f =>
      if f = (rid, ⟨channel, false⟩) then (rid, ⟨channel, true⟩) else f }
  else none

/-! ## Statements -/

/-- Forget deleted resources, when there is no room for one more. -/
def forgetDeleted (rid : Ulid) : Subscriptions :=
  if rid ∉ s.listening ∧ maxSubscriptionsPerConnection ≤ s.listening.card then
    { s with listening := s.listening.filter fun r => (s.resources r).isSome }
  else s

/-- Add a resource to those listened to, when there is room. -/
def insert (rid : Ulid) (found : Nat) : Subscriptions :=
  if rid ∉ s.listening ∧ maxSubscriptionsPerConnection ≤ s.listening.card then s
  else { s with
    listening := {rid} ∪ s.listening
    commands := s.commands ++ [.subscribe rid found]
    listened := Function.update s.listened rid true }

/-- The loop serves no statement while it handles a command. -/
def listen (rid : Ulid) : Option Subscriptions :=
  match s.subscribing, s.resources rid with
  | none, some found => some ((s.forgetDeleted rid).insert rid found)
  | none, none => some s
  | some _, _ => none

def unlisten (rid : Ulid) : Option Subscriptions :=
  match s.subscribing with
  | none => some { s with
      listening := s.listening.filter (· ≠ rid)
      commands := s.commands ++ [.unsubscribe rid]
      listened := Function.update s.listened rid false }
  | some _ => none

def unlistenAll : Option Subscriptions :=
  match s.subscribing with
  | none => some { s with
      listening := ∅
      commands := s.commands ++ [.unsubscribeAll]
      listened := fun _ => false }
  | some _ => none

/-! ## Commands -/

/-- Forget forwarders that have finished. -/
def pruned : Subscriptions := { s with forwarders := s.forwarders.filter fun f => !f.2.finished }

def containsKey (rid : Ulid) : Bool := s.forwarders.any fun f => f.1 = rid

/-- How many forwarders are for resources that exist. -/
def live : Nat := (s.forwarders.filter fun f => (s.resources f.1).isSome).length

def forget (rid : Ulid) : Subscriptions := { s with listening := s.listening.filter (· ≠ rid) }

/-- The checks of a subscription. Whether the tenant's engine is found is up to the tenants. -/
def check (resolves : Bool) (rid : Ulid) (found : Nat) : Subscriptions :=
  if s.containsKey rid then s
  else if !resolves then s.forget rid
  else if s.resources rid = none then s.forget rid
  else if maxSubscriptionsPerConnection ≤ s.live then s.forget rid
  else { s with subscribing := some (rid, found) }

/-- Handle the next command, a subscription up to its checks. -/
def handle (resolves : Bool) : Option Subscriptions :=
  match s.subscribing, s.commands with
  | none, .subscribe rid found :: rest => some ({ s with commands := rest }.pruned.check resolves rid found)
  | none, .unsubscribe rid :: rest =>
      some { s with commands := rest, forwarders := s.forwarders.filter fun f => f.1 ≠ rid }
  | none, .unsubscribeAll :: rest => some { s with commands := rest, forwarders := [] }
  | _, _ => none

/-- Subscribe, and start a forwarder. -/
def attach : Option Subscriptions :=
  match s.subscribing with
  | some (rid, _) => some { s with
      hub := (s.hub.subscribe rid).2
      forwarders := (rid, ⟨(s.hub.subscribe rid).1, false⟩) :: s.forwarders
      subscribing := none }
  | none => none

inductive Action where
  | create (rid : Ulid)
  | delete (rid : Ulid)
  | subscribeOther (rid : Ulid)
  | finish (rid : Ulid) (channel : Nat)
  | listen (rid : Ulid)
  | unlisten (rid : Ulid)
  | unlistenAll
  | handle (resolves : Bool)
  | attach
  deriving DecidableEq

/-- The connection after an action, when it is possible. -/
def step : Subscriptions → Action → Option Subscriptions
  | s, .create rid => s.create rid
  | s, .delete rid => s.delete rid
  | s, .subscribeOther rid => some (s.subscribeOther rid)
  | s, .finish rid channel => s.finish rid channel
  | s, .listen rid => s.listen rid
  | s, .unlisten rid => s.unlisten rid
  | s, .unlistenAll => s.unlistenAll
  | s, .handle resolves => s.handle resolves
  | s, .attach => s.attach

/-- A running forwarder for the resource is on its current channel. -/
def Forwards (rid : Ulid) : Prop :=
  ∃ channel, s.hub.channels rid = some channel ∧ (rid, ⟨channel, false⟩) ∈ s.forwarders

/-- A forwarder for the resource is running, on whichever channel. -/
def Runs (rid : Ulid) : Prop := ∃ channel, (rid, ⟨channel, false⟩) ∈ s.forwarders

end Subscriptions

end Deltat
