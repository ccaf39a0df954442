import Deltat.Lib.Broadcast
import Deltat.Notices
import Deltat.Subscriptions

/-! # Notices on their way to a client

A forwarder takes what the channel of a resource carries and queues it for its connection, whose
loop writes the queue on the socket. The queue is bounded. A client that stops reading fills it,
its forwarders wait and fall behind their channels, and it is told how many notices it has missed.
-/

namespace Deltat

open Lib Machine Broadcast

namespace Limits

def notifyQueuePerConnection : Nat := 1024

/-- How many notices the channel of a resource keeps. -/
def channelCapacity : Nat := 256

end Limits

open Limits

structure NotificationResponse where
  processId : Nat
  channel : String
  payload : String
  deriving DecidableEq

/-- Sent instead of silence when notices were dropped for a subscriber. -/
def laggedPayload (missed : Nat) : String :=
  "\x7b\"Lagged\":\x7b\"missed\":" ++ toString missed ++ "\x7d\x7d"

/-- The libraries that write ids and notices as texts. -/
structure Texts where
  json : Notice.Json
  displayUlid : Ulid → String

namespace Texts

variable (texts : Texts)

def payload : Item Notice → String
  | .value notice => notice.payload texts.json
  | .lagged missed => laggedPayload missed

def response (rid : Ulid) (item : Item Notice) : NotificationResponse :=
  ⟨0, "resource_" ++ texts.displayUlid rid, texts.payload item⟩

end Texts

/-- A task that forwards the notices of a resource. -/
structure Forwarding (b : Channels Notice) where
  rid : Ulid
  /-- Which of the connection's subscriptions it is for. -/
  session : Nat
  channel : Nat
  rx : b.Receiver
  /-- What it has received and not queued yet. -/
  hand : Option NotificationResponse
  finished : Bool

/-- A subscription, with its channel as it was when it began. -/
structure Session (b : Channels Notice) where
  rid : Ulid
  channel : Nat
  opening : b.Channel

/-- A connection, the channels it may listen to, and what its client was sent. Notifications are
    told apart by the subscription they are for. -/
structure Connection (b : Channels Notice) where
  hub : NotifyHub
  channel : Nat → b.Channel
  forwarders : List (Forwarding b)
  queue : List (Nat × NotificationResponse)
  socket : List (Nat × NotificationResponse)
  sessions : List (Session b)
  running : Bool

/-- The notifications for one subscription. -/
def told (k : Nat) (notifications : List (Nat × NotificationResponse)) : List NotificationResponse :=
  (notifications.filter (·.1 = k)).map (·.2)

namespace Connection

variable {b : Channels Notice}

def idle (b : Channels Notice) : Connection b :=
  ⟨⟨fun _ => none, 0⟩, fun _ => b.create channelCapacity, [], [], [], [], true⟩

variable (texts : Texts) (s : Connection b)

/-! ## What others do -/

/-- Send a notice. No-op if nobody has listened. -/
def send (rid : Ulid) (notice : Notice) : Connection b :=
  match s.hub.channels rid with
  | some n => { s with channel := Function.update s.channel n (b.send notice (s.channel n)) }
  | none => s

/-- Remove the channel of a deleted resource. -/
def remove (rid : Ulid) : Connection b :=
  match s.hub.channels rid with
  | some n => { s with channel := Function.update s.channel n (b.close (s.channel n)), hub := s.hub.remove rid }
  | none => s

def subscribeOther (rid : Ulid) : Connection b := { s with hub := (s.hub.subscribe rid).2 }

/-! ## The forwarders -/

def receive (i : Nat) : Option (Connection b) :=
  match s.forwarders[i]? with
  | some f =>
      if f.finished || f.hand.isSome then none
      else
        match b.recv (s.channel f.channel) f.rx with
        | .item item rx =>
            some { s with forwarders := s.forwarders.set i { f with rx, hand := some (texts.response f.rid item) } }
        | .pending => none
        | .closed => some { s with forwarders := s.forwarders.set i { f with finished := true } }
  | none => none

/-- Queue what was received, when there is room. -/
def forward (i : Nat) : Option (Connection b) :=
  match s.forwarders[i]? with
  | some f =>
      match f.hand with
      | some notification =>
          if s.queue.length < notifyQueuePerConnection then
            some { s with
              forwarders := s.forwarders.set i { f with hand := none }
              queue := s.queue ++ [(f.session, notification)] }
          else none
      | none => none
  | none => none

/-! ## The loop -/

/-- Subscribe, the checks passed. -/
def subscribe (rid : Ulid) : Option (Connection b) :=
  let pruned := s.forwarders.filter fun f => !f.finished
  if !s.running then none
  else if pruned.any fun f => f.rid = rid then some { s with forwarders := pruned }
  else
    let n := (s.hub.subscribe rid).1
    some { s with
      hub := (s.hub.subscribe rid).2
      forwarders := ⟨rid, s.sessions.length, n, b.subscribe (s.channel n), none, false⟩ :: pruned
      sessions := s.sessions ++ [⟨rid, n, s.channel n⟩] }

def unsubscribe (rid : Ulid) : Connection b := { s with forwarders := s.forwarders.filter fun f => f.rid ≠ rid }

def unsubscribeAll : Connection b := { s with forwarders := [] }

/-- Write the next notification on the socket. -/
def write : Option (Connection b) :=
  match s.queue with
  | notification :: rest => some { s with queue := rest, socket := s.socket ++ [notification] }
  | [] => none

/-- The loop ends, and with it the forwarders and the queue. -/
def hangUp : Connection b := { s with running := false, forwarders := [], queue := [] }

inductive Action where
  | send (rid : Ulid) (notice : Notice)
  | remove (rid : Ulid)
  | subscribeOther (rid : Ulid)
  | receive (i : Nat)
  | forward (i : Nat)
  | subscribe (rid : Ulid)
  | unsubscribe (rid : Ulid)
  | unsubscribeAll
  | write
  | hangUp

/-- The connection after an action, when it is possible. -/
def step (s : Connection b) : Action → Option (Connection b)
  | .send rid notice => some (s.send rid notice)
  | .remove rid => some (s.remove rid)
  | .subscribeOther rid => some (s.subscribeOther rid)
  | .receive i => s.receive texts i
  | .forward i => s.forward i
  | .subscribe rid => s.subscribe rid
  | .unsubscribe rid => some (s.unsubscribe rid)
  | .unsubscribeAll => some s.unsubscribeAll
  | .write => s.write
  | .hangUp => some s.hangUp

/-- The forwarders and the loop of the connection move, and nobody else. -/
def Action.delivers : Action → Prop
  | .receive _ | .forward _ | .write => True
  | _ => False

/-- What they can do, with what makes it possible. -/
inductive Moved (texts : Texts) (s : Connection b) : Action → Connection b → Prop
  | received {i : Nat} {f : Forwarding b} {item : Item Notice} {rx : b.Receiver} (there : s.forwarders[i]? = some f)
      (working : f.finished = false) (free : f.hand = none)
      (given : b.recv (s.channel f.channel) f.rx = .item item rx) : Moved texts s (.receive i)
        { s with forwarders := s.forwarders.set i { f with rx, hand := some (texts.response f.rid item) } }
  | ended {i : Nat} {f : Forwarding b} (there : s.forwarders[i]? = some f) (working : f.finished = false)
      (free : f.hand = none) (drained : b.recv (s.channel f.channel) f.rx = .closed) :
      Moved texts s (.receive i) { s with forwarders := s.forwarders.set i { f with finished := true } }
  | forwarded {i : Nat} {f : Forwarding b} {notification : NotificationResponse} (there : s.forwarders[i]? = some f)
      (full : f.hand = some notification) (room : s.queue.length < notifyQueuePerConnection) :
      Moved texts s (.forward i) { s with
        forwarders := s.forwarders.set i { f with hand := none }, queue := s.queue ++ [(f.session, notification)] }
  | wrote {notification : Nat × NotificationResponse} {rest : List (Nat × NotificationResponse)}
      (head : s.queue = notification :: rest) :
      Moved texts s .write { s with queue := rest, socket := s.socket ++ [notification] }

theorem moved {texts : Texts} {s s' : Connection b} {a : Action} (taken : s.step texts a = some s') (own : a.delivers) :
    s.Moved texts a s' := by
  cases a with
  | receive i =>
      simp only [step, receive] at taken
      split at taken
      · next there =>
          split at taken
          · cases taken
          · next busy =>
              simp only [Bool.or_eq_true, not_or, Bool.not_eq_true, Option.isSome_eq_false_iff,
                Option.isNone_iff_eq_none] at busy
              split at taken
              · next given => cases taken; exact .received there busy.1 busy.2 given
              · cases taken
              · next drained => cases taken; exact .ended there busy.1 busy.2 drained
      · cases taken
  | forward i =>
      simp only [step, forward] at taken
      split at taken
      · next there =>
          split at taken
          · next full =>
              split at taken
              · next room => cases taken; exact .forwarded there full room
              · cases taken
          · cases taken
      · cases taken
  | write =>
      simp only [step, write] at taken
      split at taken
      · next head => cases taken; exact .wrote head
      · cases taken
  | _ => cases own

/-! ## What every step keeps -/

section

variable {texts : Texts} {s s' : Connection b} {a : Action} {doc : Documented b}

/-- The items tell of what the channel has carried since the subscription began, up to a place. If
    that is everything, the latest notice is the last of them. -/
structure Hears (doc : Documented b) (session : Session b) (c : b.Channel) (items : List (Item Notice)) (q : Nat) :
    Prop where
  heard : Heard (doc.sent c) (doc.sent session.opening).length items q
  within : q ≤ (doc.sent c).length
  newest : q = (doc.sent c).length → (doc.sent session.opening).length < q →
    ∃ notice, items.getLast? = some (.value notice) ∧ (doc.sent c).getLast? = some notice

/-- What a forwarder has received so far, and that all of it is on its way. -/
def Serves (doc : Documented b) (texts : Texts) (s : Connection b) (f : Forwarding b) : Prop :=
  ∃ session items, s.sessions[f.session]? = some session ∧ session.rid = f.rid ∧ session.channel = f.channel ∧
    Hears doc session (s.channel f.channel) items (doc.read f.rx) ∧
    told f.session (s.socket ++ s.queue) ++ f.hand.toList = items.map (texts.response f.rid)

/-- What was queued for a subscription tells of its channel. -/
def Tells (doc : Documented b) (texts : Texts) (session : Session b) (c : b.Channel)
    (notifications : List NotificationResponse) : Prop :=
  ∃ items q, Heard (doc.sent c) (doc.sent session.opening).length items q ∧ q ≤ (doc.sent c).length ∧
    notifications = items.map (texts.response session.rid)

structure Faithful (doc : Documented b) (texts : Texts) (s : Connection b) : Prop where
  distinct : (s.forwarders.map (·.session)).Nodup
  keeps : ∀ n, 0 < doc.kept (s.channel n)
  grown : ∀ session ∈ s.sessions, doc.sent session.opening <+: doc.sent (s.channel session.channel)
  serves : ∀ f ∈ s.forwarders, Serves doc texts s f
  tells : ∀ (k : Nat) session, s.sessions[k]? = some session →
    Tells doc texts session (s.channel session.channel) (told k (s.socket ++ s.queue))
  numbered : ∀ x ∈ s.socket ++ s.queue, x.1 < s.sessions.length
  room : s.queue.length ≤ notifyQueuePerConnection

theorem told_append (k : Nat) (xs ys : List (Nat × NotificationResponse)) : told k (xs ++ ys) = told k xs ++ told k ys := by
  simp [told]

theorem told_singleton (k j : Nat) (notification : NotificationResponse) :
    told k [(j, notification)] = if j = k then [notification] else [] := by
  by_cases mine : j = k <;> simp [told, mine]

/-- The first notifications for a subscription tell of its channel too. -/
theorem Tells.before {session : Session b} {c : b.Channel} {first rest : List NotificationResponse}
    (tells : Tells doc texts session c (first ++ rest)) : Tells doc texts session c first := by
  obtain ⟨items, q, heard, within, same⟩ := tells
  obtain ⟨early, late, rfl, mine, _⟩ := List.append_eq_map_iff.mp same
  obtain ⟨p, before⟩ := heard.before
  have counted := heard.counted
  have fewer := before.counted
  simp only [List.map_append, List.sum_append] at counted
  exact ⟨early, p, before, by omega, mine.symm⟩

theorem Serves.tells {f : Forwarding b} (serves : Serves doc texts s f) {session : Session b}
    (began : s.sessions[f.session]? = some session) :
    Tells doc texts session (s.channel session.channel) (told f.session (s.socket ++ s.queue)) := by
  obtain ⟨_, items, also, rid, channel, hears, whole⟩ := serves
  cases also.symm.trans began
  have all : Tells doc texts session (s.channel session.channel)
      (told f.session (s.socket ++ s.queue) ++ f.hand.toList) :=
    ⟨items, _, channel ▸ hears.heard, channel ▸ hears.within, by rw [whole, rid]⟩
  exact all.before

/-! ### What others do -/

theorem Hears.longer {session : Session b} {c c' : b.Channel} {items : List (Item Notice)} {q : Nat}
    (hears : Hears doc session c items q) (grown : doc.sent c <+: doc.sent c') : Hears doc session c' items q where
  heard := hears.heard.longer grown
  within := hears.within.trans grown.length_le
  newest all some := by
    have shorter := grown.length_le
    have within := hears.within
    have same : doc.sent c = doc.sent c' := grown.eq_of_length (by omega)
    rw [← same]
    exact hears.newest (by rw [same]; exact all) some

/-- The channels carry more, and nothing else changes. -/
theorem Faithful.carried (faithful : Faithful doc texts s) {hub : NotifyHub} {channel : Nat → b.Channel}
    (grown : ∀ n, doc.sent (s.channel n) <+: doc.sent (channel n) ∧ doc.kept (channel n) = doc.kept (s.channel n)) :
    Faithful doc texts { s with hub, channel } where
  distinct := faithful.distinct
  keeps n := (grown n).2 ▸ faithful.keeps n
  grown session began := (faithful.grown session began).trans (grown _).1
  serves f inside := by
    obtain ⟨session, items, began, rid, same, hears, whole⟩ := faithful.serves f inside
    exact ⟨session, items, began, rid, same, hears.longer (grown _).1, whole⟩
  tells k session began := by
    obtain ⟨items, q, heard, within, same⟩ := faithful.tells k session began
    exact ⟨items, q, heard.longer (grown _).1, within.trans (grown _).1.length_le, same⟩
  numbered := faithful.numbered
  room := faithful.room

/-! ### The forwarders -/

/-- Forwarders end. -/
theorem Faithful.fewer (faithful : Faithful doc texts s) {forwarders : List (Forwarding b)}
    (fewer : forwarders.Sublist s.forwarders) : Faithful doc texts { s with forwarders } :=
  { faithful with
    distinct := faithful.distinct.sublist (fewer.map _)
    serves := fun f inside => faithful.serves f (fewer.subset inside) }

/-- Whoever is among the forwarders after one of them has moved. -/
theorem mem_moved {forwarders : List (Forwarding b)} {f f' g : Forwarding b} {i : Nat}
    (distinct : (forwarders.map (·.session)).Nodup) (there : forwarders[i]? = some f) (inside : g ∈ forwarders.set i f') :
    g = f' ∨ g ∈ forwarders ∧ g.session ≠ f.session := by
  obtain ⟨j, inRange, here⟩ := List.mem_iff_getElem.mp inside
  rw [List.length_set] at inRange
  rw [List.getElem_set] at here
  split at here
  · exact .inl here.symm
  · next other =>
      obtain ⟨bound, this⟩ := List.getElem?_eq_some_iff.mp there
      subst here this
      refine .inr ⟨List.getElem_mem _, fun same => other ?_⟩
      apply (List.getElem?_inj (by simpa using bound) distinct).mp
      rw [List.getElem?_map, List.getElem?_map, List.getElem?_eq_getElem bound, List.getElem?_eq_getElem inRange]
      exact congrArg some same.symm

theorem sessions_moved {forwarders : List (Forwarding b)} {f f' : Forwarding b} {i : Nat}
    (there : forwarders[i]? = some f) (same : f'.session = f.session) :
    (forwarders.set i f').map (·.session) = forwarders.map (·.session) := by
  obtain ⟨bound, this⟩ := List.getElem?_eq_some_iff.mp there
  rw [List.map_set, same, ← this]
  apply List.ext_getElem (by simp)
  intro j _ _
  simp only [List.getElem_set, List.getElem_map]
  split
  · next here => subst here; rfl
  · rfl

/-- A forwarder receives, or learns that there is nothing any more. -/
theorem Faithful.moves (faithful : Faithful doc texts s) {i : Nat} {f f' : Forwarding b}
    (there : s.forwarders[i]? = some f) (same : f.session = f'.session)
    (serves : Serves doc texts { s with forwarders := s.forwarders.set i f' } f') :
    Faithful doc texts { s with forwarders := s.forwarders.set i f' } :=
  { faithful with
    distinct := (sessions_moved there same.symm).symm ▸ faithful.distinct
    serves := fun g inside => by
      rcases mem_moved faithful.distinct there inside with rfl | ⟨before, _⟩
      · exact serves
      · exact faithful.serves g before }

/-- One item more. -/
theorem Hears.next {session : Session b} {c : b.Channel} {items : List (Item Notice)} {rx rx' : b.Receiver} {item : Item Notice}
    (hears : Hears doc session c items (doc.read rx)) (given : b.recv c rx = .item item rx') (keeps : 0 < doc.kept c) :
    Hears doc session c (items ++ [item]) (doc.read rx') := by
  obtain ⟨heard, within, newest⟩ := doc.received given keeps
  refine ⟨hears.heard.append heard, within, fun all _ => ?_⟩
  obtain ⟨notice, rfl, latest⟩ := newest all
  exact ⟨notice, List.getLast?_concat .., latest⟩

theorem Faithful.received (faithful : Faithful doc texts s) {i : Nat} {f : Forwarding b} {item : Item Notice}
    {rx : b.Receiver} (there : s.forwarders[i]? = some f) (free : f.hand = none)
    (given : b.recv (s.channel f.channel) f.rx = .item item rx) : Faithful doc texts { s with
      forwarders := s.forwarders.set i { f with rx, hand := some (texts.response f.rid item) } } := by
  have same : f.session = ({ f with rx, hand := some (texts.response f.rid item) } : Forwarding b).session := rfl
  apply faithful.moves there same
  obtain ⟨session, items, began, rid, channel, hears, whole⟩ := faithful.serves f (List.mem_of_getElem? there)
  refine ⟨session, items ++ [item], began, rid, channel, hears.next given (faithful.keeps _), ?_⟩
  simp only [free, Option.toList_none, List.append_nil] at whole
  simp only [whole, Option.toList_some, List.map_append, List.map_cons, List.map_nil]

theorem Faithful.forwarded (faithful : Faithful doc texts s) {i : Nat} {f : Forwarding b}
    {notification : NotificationResponse} (there : s.forwarders[i]? = some f) (full : f.hand = some notification)
    (free : s.queue.length < notifyQueuePerConnection) : Faithful doc texts { s with
      forwarders := s.forwarders.set i { f with hand := none }, queue := s.queue ++ [(f.session, notification)] } := by
  have mine := faithful.serves f (List.mem_of_getElem? there)
  have longer : ∀ k, told k (s.socket ++ (s.queue ++ [(f.session, notification)])) =
      told k (s.socket ++ s.queue) ++ if f.session = k then [notification] else [] := by
    intro k
    rw [← List.append_assoc, told_append, told_singleton]
  have moved : Serves doc texts { s with
      forwarders := s.forwarders.set i { f with hand := none }, queue := s.queue ++ [(f.session, notification)] }
      { f with hand := none } := by
    obtain ⟨session, items, began, rid, channel, hears, whole⟩ := mine
    refine ⟨session, items, began, rid, channel, hears, ?_⟩
    rw [longer, if_pos rfl, ← whole, full]
    simp
  have others : ∀ k, k ≠ f.session →
      told k (s.socket ++ (s.queue ++ [(f.session, notification)])) = told k (s.socket ++ s.queue) := by
    intro k other
    rw [longer, if_neg (Ne.symm other), List.append_nil]
  refine ⟨?_, faithful.keeps, faithful.grown, fun g inside => ?_, fun k session began => ?_, fun x inside => ?_, ?_⟩
  · have same : ({ f with hand := none } : Forwarding b).session = f.session := rfl
    rw [sessions_moved there same]
    exact faithful.distinct
  · rcases mem_moved faithful.distinct there inside with rfl | ⟨before, other⟩
    · exact moved
    · obtain ⟨session, items, began, rid, channel, hears, whole⟩ := faithful.serves g before
      exact ⟨session, items, began, rid, channel, hears, by rw [others _ other]; exact whole⟩
  · by_cases own : k = f.session
    · subst own
      exact moved.tells began
    · rw [others k own]
      exact faithful.tells k session began
  · simp only [← List.append_assoc, List.mem_append, List.mem_singleton] at inside
    rcases inside with before | rfl
    · exact faithful.numbered x (List.mem_append.mpr before)
    · obtain ⟨_, _, began, _⟩ := mine
      exact (List.getElem?_eq_some_iff.mp began).1
  · simp only [List.length_append, List.length_singleton]
    omega

/-- The loop writes the queue in order. -/
theorem Faithful.written (faithful : Faithful doc texts s) {notification : Nat × NotificationResponse}
    {rest : List (Nat × NotificationResponse)} (head : s.queue = notification :: rest) :
    Faithful doc texts { s with queue := rest, socket := s.socket ++ [notification] } := by
  have same : s.socket ++ [notification] ++ rest = s.socket ++ s.queue := by
    rw [head, List.append_assoc, List.singleton_append]
  have room := faithful.room
  rw [head, List.length_cons] at room
  have shorter : rest.length ≤ notifyQueuePerConnection := by omega
  refine ⟨faithful.distinct, faithful.keeps, faithful.grown, fun f inside => ?_, ?_, ?_, shorter⟩
  · simp only [Serves, same]
    exact faithful.serves f inside
  · simp only [same]
    exact faithful.tells
  · simp only [same]
    exact faithful.numbered

/-- A subscription begins where its channel is. -/
theorem Faithful.subscribed (faithful : Faithful doc texts s) (rid : Ulid) (n : Nat) (hub : NotifyHub) :
    Faithful doc texts { s with
      hub
      forwarders := ⟨rid, s.sessions.length, n, b.subscribe (s.channel n), none, false⟩ :: s.forwarders
      sessions := s.sessions ++ [⟨rid, n, s.channel n⟩] } := by
  have none : told s.sessions.length (s.socket ++ s.queue) = [] := by
    simp only [told, List.map_eq_nil_iff, List.filter_eq_nil_iff, decide_eq_true_eq]
    exact fun x inside => (faithful.numbered x inside).ne
  have before : ∀ {k : Nat} {session : Session b}, s.sessions[k]? = some session →
      (s.sessions ++ [⟨rid, n, s.channel n⟩])[k]? = some session := by
    intro k session began
    rwa [List.getElem?_append_left (List.getElem?_eq_some_iff.mp began).1]
  have here : (s.sessions ++ [⟨rid, n, s.channel n⟩])[s.sessions.length]? = some ⟨rid, n, s.channel n⟩ := by
    simp
  have nothing : Heard (doc.sent (s.channel n)) (doc.sent (s.channel n)).length [] (doc.sent (s.channel n)).length := .nil _
  refine ⟨?_, faithful.keeps, fun session inside => ?_, fun f inside => ?_, fun k session began => ?_, fun x inside => ?_,
    faithful.room⟩
  · refine List.nodup_cons.mpr ⟨fun inside => ?_, faithful.distinct⟩
    obtain ⟨f, there, same⟩ := List.mem_map.mp inside
    obtain ⟨_, _, began, _⟩ := faithful.serves f there
    have earlier := (List.getElem?_eq_some_iff.mp began).1
    rw [same] at earlier
    exact Nat.lt_irrefl _ earlier
  · rcases List.mem_append.mp inside with there | now
    · exact faithful.grown session there
    · cases List.mem_singleton.mp now
      exact List.prefix_rfl
  · rcases List.mem_cons.mp inside with rfl | inside
    · refine ⟨_, [], here, rfl, rfl, ⟨?_, ?_, fun _ some => ?_⟩, ?_⟩
      · rw [doc.subscribe]
        exact nothing
      · rw [doc.subscribe]
      · rw [doc.subscribe] at some
        exact (Nat.lt_irrefl _ some).elim
      · simpa using none
    · obtain ⟨session, items, began, rest⟩ := faithful.serves f inside
      exact ⟨session, items, before began, rest⟩
  · rcases Nat.lt_or_ge k s.sessions.length with earlier | late
    · rw [List.getElem?_append_left earlier] at began
      exact faithful.tells k session began
    · have last := (List.getElem?_eq_some_iff.mp began).1
      simp only [List.length_append, List.length_singleton] at last
      obtain rfl : k = s.sessions.length := by omega
      cases here.symm.trans began
      exact ⟨[], _, nothing, Nat.le_refl _, by rw [none, List.map_nil]⟩
  · have earlier := faithful.numbered x inside
    simp only [List.length_append, List.length_singleton]
    omega

theorem Faithful.hungUp (faithful : Faithful doc texts s) : Faithful doc texts s.hangUp where
  distinct := .nil
  keeps := faithful.keeps
  grown := faithful.grown
  serves _ inside := (List.not_mem_nil inside).elim
  tells k session began := by
    have tells := faithful.tells k session began
    rw [told_append] at tells
    simpa only [hangUp, List.append_nil] using tells.before
  numbered x inside := by
    simp only [hangUp, List.append_nil] at inside
    exact faithful.numbered x (List.mem_append_left _ inside)
  room := Nat.zero_le _

theorem idle_faithful (doc : Documented b) (texts : Texts) : Faithful doc texts (idle b) where
  distinct := .nil
  keeps _ := doc.keeps _ (by decide)
  grown _ inside := (List.not_mem_nil inside).elim
  serves _ inside := (List.not_mem_nil inside).elim
  tells k session began := by simp [idle] at began
  numbered _ inside := (List.not_mem_nil inside).elim
  room := Nat.zero_le _

theorem Faithful.moved (faithful : Faithful doc texts s) (moved : s.Moved texts a s') : Faithful doc texts s' := by
  cases moved with
  | received there _ free given => exact faithful.received there free given
  | @ended _ f there =>
      have same : f.session = ({ f with finished := true } : Forwarding b).session := rfl
      exact faithful.moves there same (faithful.serves f (List.mem_of_getElem? there))
  | forwarded there full room => exact faithful.forwarded there full room
  | wrote head => exact faithful.written head

theorem Faithful.next (faithful : Faithful doc texts s) (taken : s.step texts a = some s') : Faithful doc texts s' := by
  cases a with
  | send rid notice =>
      cases taken
      unfold send
      split
      · next n _ =>
          apply faithful.carried
          intro m
          by_cases here : m = n
          · subst here
            obtain ⟨sent, _, kept⟩ := doc.send notice (s.channel m)
            rw [Function.update_self, sent]
            exact ⟨List.prefix_append _ _, kept⟩
          · rw [Function.update_of_ne here]
            exact ⟨List.prefix_rfl, rfl⟩
      · exact faithful
  | remove rid =>
      cases taken
      unfold remove
      split
      · next n _ =>
          apply faithful.carried
          intro m
          by_cases here : m = n
          · subst here
            obtain ⟨sent, _, kept⟩ := doc.close (s.channel m)
            rw [Function.update_self, sent]
            exact ⟨List.prefix_rfl, kept⟩
          · rw [Function.update_of_ne here]
            exact ⟨List.prefix_rfl, rfl⟩
      · exact faithful
  | subscribeOther rid =>
      cases taken
      exact faithful.carried fun _ => ⟨List.prefix_rfl, rfl⟩
  | receive | forward | write => exact faithful.moved (Connection.moved taken trivial)
  | subscribe rid =>
      simp only [step, subscribe] at taken
      have pruned := faithful.fewer (List.filter_sublist (p := fun f => !f.finished))
      split at taken
      · cases taken
      · split at taken
        · cases taken
          exact pruned
        · cases taken
          exact pruned.subscribed rid _ _
  | unsubscribe rid => cases taken; exact faithful.fewer List.filter_sublist
  | unsubscribeAll => cases taken; exact faithful.fewer (List.nil_sublist _)
  | hangUp => cases taken; exact faithful.hungUp

theorem reached_faithful (doc : Documented b) (reached : Reaches (step texts) (fun _ _ => True) (idle b) s) :
    Faithful doc texts s :=
  reached.invariant (I := fun s => Faithful doc texts s) (idle_faithful doc texts) fun _ _ _ faithful _ taken =>
    faithful.next taken

/-- In every order of sending, forwarding and writing, what a client was sent for a subscription
    tells of everything its channel has carried since it began, up to a place: each notice once and
    in its turn, or counted by the `Lagged` in its place. -/
theorem heard_in_order (doc : Documented b) (reached : Reaches (step texts) (fun _ _ => True) (idle b) s) {k : Nat}
    {session : Session b} (began : s.sessions[k]? = some session) : ∃ items q,
      told k s.socket = items.map (texts.response session.rid) ∧
      doc.sent session.opening <+: doc.sent (s.channel session.channel) ∧
      Heard (doc.sent (s.channel session.channel)) (doc.sent session.opening).length items q ∧
      (doc.sent session.opening).length + (items.map Item.count).sum = q ∧
      q ≤ (doc.sent (s.channel session.channel)).length ∧
      (items.filterMap Item.value?).Sublist
        ((doc.sent (s.channel session.channel)).drop (doc.sent session.opening).length) ∧
      s.queue.length ≤ notifyQueuePerConnection := by
  have faithful := reached_faithful doc reached
  have tells := faithful.tells k session began
  rw [told_append] at tells
  obtain ⟨items, q, heard, within, same⟩ := tells.before
  exact ⟨items, q, same, faithful.grown session (List.mem_of_getElem? began), heard, heard.counted, within, heard.sublist,
    faithful.room⟩

/-- The texts of rules taken off, for ids below ten. -/
def fewTexts : Texts where
  displayUlid id := "0000000000000000000000000" ++ toString id
  json := {
    ofEvent := fun event =>
      match event with
      | .ruleRemoved id resourceId => .ok ("\x7b\"RuleRemoved\":\x7b\"id\":\"0000000000000000000000000" ++ toString id ++
          "\",\"resource_id\":\"0000000000000000000000000" ++ toString resourceId ++ "\"\x7d\x7d")
      | _ => .error "not among them"
    ofEnded := fun _ => .error "not among them" }

def ruleTaken : Notice := .of (.ruleRemoved 2 1)

/-- A client listens, and its channel carries one notice more than it keeps. -/
def fallingBehind : List Action := .subscribe 1 :: List.replicate 257 (.send 1 ruleTaken)

/-- The client reads two notifications. -/
def reading : List Action := [.receive 0, .forward 0, .receive 0, .forward 0, .write, .write]

/-- What the client is sent. -/
def gapTold : List NotificationResponse := [
  ⟨0, "resource_00000000000000000000000001", "\x7b\"Lagged\":\x7b\"missed\":1\x7d\x7d"⟩,
  ⟨0, "resource_00000000000000000000000001", "\x7b\"RuleRemoved\":\x7b\"id\":\"00000000000000000000000002\",\"resource_id\":\"00000000000000000000000001\"\x7d\x7d"⟩]

/-- The client was told of the hole and then of the oldest notice kept. -/
theorem gap_heard_in_order : ∃ (s : Connection (ring Notice)) (session : Session (ring Notice)),
    Reaches (step fewTexts) (fun _ _ => True) (idle (ring Notice)) s ∧ s.sessions[0]? = some session ∧
    session.rid = 1 ∧ told 0 s.socket = gapTold ∧ ∃ items q, told 0 s.socket = items.map (fewTexts.response 1) ∧
      Heard (s.channel session.channel).sent session.opening.sent.length items q := by
  have possible : (Machine.run (step fewTexts) (fallingBehind ++ reading) (idle (ring Notice))).map (fun s =>
      (told 0 s.socket, s.sessions.map (·.rid))) = some (gapTold, [1]) := by decide +kernel
  obtain ⟨s, ran, state⟩ := Option.map_eq_some_iff.mp possible
  have reached : Reaches (step fewTexts) (fun _ _ => True) (idle (ring Notice)) s :=
    Machine.reaches_of_run (fun _ _ _ => trivial) ran
  have rids := congrArg Prod.snd state
  simp only [List.map_eq_singleton_iff] at rids
  obtain ⟨session, sessions, rid⟩ := rids
  have began : s.sessions[0]? = some session := by rw [sessions]; rfl
  obtain ⟨items, q, same, _, heard, _⟩ := heard_in_order (ringDocumented Notice) reached began
  rw [rid] at same
  exact ⟨s, session, reached, began, rid, congrArg Prod.fst state, items, q, same, heard⟩

/-! ## A connection that catches up -/

/-- Closed channels carry nothing more, and forwarders that have ended have had all of theirs. -/
structure Closing (doc : Documented b) (s : Connection b) : Prop where
  mapped : ∀ rid n, s.hub.channels rid = some n → n < s.hub.opened ∧ doc.closed (s.channel n) = false
  apart : ∀ rid other n, s.hub.channels rid = some n → s.hub.channels other = some n → rid = other
  fresh : ∀ n, s.hub.opened ≤ n → doc.closed (s.channel n) = false
  ended : ∀ f ∈ s.forwarders, f.finished = true → f.hand = none ∧ doc.closed (s.channel f.channel) = true ∧
    (doc.sent (s.channel f.channel)).length ≤ doc.read f.rx

theorem Closing.subscribed (closing : Closing doc s) (rid : Ulid) :
    Closing doc { s with hub := (s.hub.subscribe rid).2 } := by
  unfold NotifyHub.subscribe
  cases there : s.hub.channels rid with
  | some n => exact ⟨closing.mapped, closing.apart, closing.fresh, closing.ended⟩
  | none =>
      refine ⟨fun other n same => ?_, fun one other n same too => ?_, fun n later => ?_, closing.ended⟩
      · simp only [Function.update_apply] at same
        split at same
        · cases same
          exact ⟨Nat.lt_succ_self _, closing.fresh _ (Nat.le_refl _)⟩
        · have before := closing.mapped other n same
          exact ⟨Nat.lt_succ_of_lt before.1, before.2⟩
      · simp only [Function.update_apply] at same too
        split at same
        · next mine =>
            cases same
            split at too
            · next also => exact mine.trans also.symm
            · exact absurd (closing.mapped other _ too).1 (Nat.lt_irrefl _)
        · split at too
          · cases too
            exact absurd (closing.mapped one _ same).1 (Nat.lt_irrefl _)
          · exact closing.apart one other n same too
      · exact closing.fresh n (Nat.le_of_succ_le later)

/-- Forwarders that have not ended say nothing of their channels. -/
theorem Closing.among (closing : Closing doc s) {forwarders : List (Forwarding b)}
    (ended : ∀ f ∈ forwarders, f.finished = true → f ∈ s.forwarders ∨ f.hand = none ∧
      doc.closed (s.channel f.channel) = true ∧ (doc.sent (s.channel f.channel)).length ≤ doc.read f.rx) :
    Closing doc { s with forwarders } :=
  { closing with
    ended := fun f inside finished => (ended f inside finished).elim (closing.ended f · finished) id }

theorem Closing.set (closing : Closing doc s) {f : Forwarding b} {i : Nat} (working : f.finished = false) :
    Closing doc { s with forwarders := s.forwarders.set i f } := by
  apply closing.among
  intro g inside finished
  rcases List.mem_or_eq_of_mem_set inside with before | rfl
  · exact .inl before
  · cases working.symm.trans finished

theorem Closing.moved (closing : Closing doc s) (moved : s.Moved texts a s') : Closing doc s' := by
  cases moved with
  | received _ working => exact closing.set working
  | ended _ _ free drained =>
      have past := doc.idle fun item rx given => by cases drained.symm.trans given
      have waits := doc.waits _ _ past
      rw [drained] at waits
      apply closing.among
      intro g inside _
      rcases List.mem_or_eq_of_mem_set inside with before | rfl
      · exact .inl before
      · refine .inr ⟨free, ?_, past⟩
        split at waits
        · next closed => exact closed
        · cases waits
  | @forwarded i f _ there full =>
      have working : f.finished = false := by
        by_contra finished
        rw [Bool.not_eq_false] at finished
        cases full.symm.trans (closing.ended f (List.mem_of_getElem? there) finished).1
      have kept : Closing doc { s with forwarders := s.forwarders.set i { f with hand := none } } := closing.set working
      exact ⟨kept.mapped, kept.apart, kept.fresh, kept.ended⟩
  | wrote => exact ⟨closing.mapped, closing.apart, closing.fresh, closing.ended⟩

theorem Closing.next (closing : Closing doc s) (taken : s.step texts a = some s') : Closing doc s' := by
  cases a with
  | send rid notice =>
      cases taken
      unfold send
      split
      · next n here =>
          have closed : ∀ m, doc.closed (Function.update s.channel n (b.send notice (s.channel n)) m) =
              doc.closed (s.channel m) := by
            intro m
            by_cases same : m = n
            · subst same
              rw [Function.update_self]
              exact (doc.send notice (s.channel m)).2.1
            · rw [Function.update_of_ne same]
          refine ⟨fun rid n mapped => ?_, closing.apart, fun n later => ?_, fun f inside finished => ?_⟩
          · rw [closed]
            exact closing.mapped rid n mapped
          · rw [closed]
            exact closing.fresh n later
          · obtain ⟨free, ended, past⟩ := closing.ended f inside finished
            have other : f.channel ≠ n := by
              rintro rfl
              cases ended.symm.trans (closing.mapped rid _ here).2
            simp only [Function.update_of_ne other]
            exact ⟨free, ended, past⟩
      · exact closing
  | remove rid =>
      cases taken
      unfold remove
      split
      · next n here =>
          refine ⟨fun other m mapped => ?_, fun one other m same too => ?_, fun m later => ?_, fun f inside finished => ?_⟩
          · simp only [NotifyHub.remove, Function.update_apply] at mapped
            split at mapped
            · cases mapped
            · next apart =>
                have elsewhere : m ≠ n := by
                  rintro rfl
                  exact apart (closing.apart other rid m mapped here)
                simp only [Function.update_of_ne elsewhere]
                exact closing.mapped other m mapped
          · simp only [NotifyHub.remove, Function.update_apply] at same too
            split at same
            · cases same
            · split at too
              · cases too
              · exact closing.apart one other m same too
          · have elsewhere : m ≠ n := by
              rintro rfl
              exact Nat.lt_irrefl _ (Nat.lt_of_lt_of_le (closing.mapped rid m here).1 later)
            simp only [Function.update_of_ne elsewhere]
            exact closing.fresh m later
          · obtain ⟨free, ended, past⟩ := closing.ended f inside finished
            refine ⟨free, ?_⟩
            by_cases same : f.channel = n
            · subst same
              obtain ⟨sent, closed, _⟩ := doc.close (s.channel f.channel)
              simp only [Function.update_self, sent]
              exact ⟨closed, past⟩
            · simp only [Function.update_of_ne same]
              exact ⟨ended, past⟩
      · exact closing
  | subscribeOther rid => cases taken; exact closing.subscribed rid
  | receive | forward | write => exact closing.moved (Connection.moved taken trivial)
  | subscribe rid =>
      simp only [step, subscribe] at taken
      have pruned : Closing doc { s with forwarders := s.forwarders.filter fun f => !f.finished } :=
        closing.among fun f inside _ => .inl (List.mem_of_mem_filter inside)
      split at taken
      · cases taken
      · split at taken
        · cases taken
          exact pruned
        · cases taken
          have begun := pruned.subscribed rid
          refine ⟨begun.mapped, begun.apart, begun.fresh, fun f inside finished => ?_⟩
          rcases List.mem_cons.mp inside with rfl | inside
          · cases finished
          · exact begun.ended f inside finished
  | unsubscribe rid => cases taken; exact closing.among fun f inside _ => .inl (List.mem_of_mem_filter inside)
  | unsubscribeAll => cases taken; exact closing.among fun f inside _ => (List.not_mem_nil inside).elim
  | hangUp =>
      cases taken
      exact ⟨closing.mapped, closing.apart, closing.fresh, fun _ inside => (List.not_mem_nil inside).elim⟩

theorem idle_closing (doc : Documented b) : Closing doc (idle b) where
  mapped _ _ mapped := by cases mapped
  apart _ _ _ mapped := by cases mapped
  fresh _ _ := (doc.create _).2
  ended _ inside := (List.not_mem_nil inside).elim

/-- What a forwarder has to do with what its channel carries now. -/
def remaining (doc : Documented b) (c : b.Channel) (f : Forwarding b) : Nat :=
  3 * ((doc.sent c).length - doc.read f.rx) + 2 * f.hand.toList.length + if f.finished then 0 else 1

/-- What the forwarders and the loop have to do before they wait for somebody else. -/
def due (doc : Documented b) (s : Connection b) : Nat :=
  (s.forwarders.map fun f => remaining doc (s.channel f.channel) f).sum + s.queue.length

theorem sum_moved {forwarders : List (Forwarding b)} {f : Forwarding b} {i : Nat} (f' : Forwarding b)
    (work : Forwarding b → Nat) (there : forwarders[i]? = some f) :
    ((forwarders.set i f').map work).sum + work f = (forwarders.map work).sum + work f' := by
  induction forwarders generalizing i with
  | nil => cases there
  | cons g forwarders ih =>
      cases i with
      | zero =>
          cases there
          simp only [List.set_cons_zero, List.map_cons, List.sum_cons]
          omega
      | succ i =>
          have rest := ih there
          simp only [List.set_cons_succ, List.map_cons, List.sum_cons]
          omega

/-- Each move leaves less to do, the same channels, and forwarders for the same subscriptions. -/
theorem Faithful.nearer (faithful : Faithful doc texts s) (moved : s.Moved texts a s') :
    s'.due doc < s.due doc ∧ s'.channel = s.channel ∧ s'.sessions = s.sessions ∧
      s'.forwarders.map (·.session) = s.forwarders.map (·.session) := by
  cases moved with
  | @received i f item rx there _ free given =>
      have moves := sum_moved { f with rx, hand := some (texts.response f.rid item) }
        (fun f => remaining doc (s.channel f.channel) f) there
      have further := doc.received_further given (faithful.keeps _)
      have within := (doc.received given (faithful.keeps _)).2.1
      refine ⟨?_, rfl, rfl, sessions_moved there rfl⟩
      simp only [remaining, free, Option.toList_none, Option.toList_some, List.length_nil, List.length_singleton] at moves
      simp only [due, remaining]
      omega
  | @ended i f there working free =>
      have moves := sum_moved { f with finished := true } (fun f => remaining doc (s.channel f.channel) f) there
      refine ⟨?_, rfl, rfl, sessions_moved there rfl⟩
      simp only [remaining, working, if_true, Bool.false_eq_true, if_false] at moves
      simp only [due, remaining]
      omega
  | @forwarded i f notification there full =>
      have moves := sum_moved { f with hand := none } (fun f => remaining doc (s.channel f.channel) f) there
      refine ⟨?_, rfl, rfl, sessions_moved there rfl⟩
      simp only [remaining, full, Option.toList_none, Option.toList_some, List.length_nil, List.length_singleton] at moves
      simp only [due, remaining, List.length_append, List.length_singleton]
      omega
  | wrote head =>
      refine ⟨?_, rfl, rfl, rfl⟩
      simp only [due, head, List.length_cons]
      omega

/-- Where none of them can move, everything has been received and written. -/
theorem Closing.settled (closing : Closing doc s)
    (still : ∀ a : Action, a.delivers → s.step texts a = none) : s.queue = [] ∧ ∀ f ∈ s.forwarders,
      f.hand = none ∧ (doc.sent (s.channel f.channel)).length ≤ doc.read f.rx := by
  have empty : s.queue = [] := by
    have stuck := still .write trivial
    simp only [step, write] at stuck
    split at stuck
    · cases stuck
    · next none => exact none
  refine ⟨empty, fun f inside => ?_⟩
  obtain ⟨i, inRange, rfl⟩ := List.mem_iff_getElem.mp inside
  have there := List.getElem?_eq_getElem inRange
  have free : s.forwarders[i].hand = none := by
    cases full : s.forwarders[i].hand with
    | none => rfl
    | some notification =>
        have stuck := still (.forward i) trivial
        simp [step, forward, there, full, empty, notifyQueuePerConnection] at stuck
  refine ⟨free, ?_⟩
  cases working : s.forwarders[i].finished with
  | true => exact (closing.ended _ inside working).2.2
  | false =>
      apply doc.idle
      intro item rx given
      have stuck := still (.receive i) trivial
      simp [step, receive, there, working, free, given] at stuck

/-- Once nothing new is sent, the connection catches up: however its forwarders and its loop take
    turns, they soon wait, and then its client was told of everything that each of its channels has
    carried, ending with the latest notice. -/
theorem catches_up (doc : Documented b) (reached : Reaches (step texts) (fun _ _ => True) (idle b) s) {u : Connection b}
    {moves : List Action} (own : ∀ a ∈ moves, a.delivers) (ran : Machine.run (step texts) moves s = some u) :
    moves.length ≤ s.due doc ∧ ((∀ a : Action, a.delivers → u.step texts a = none) →
      u.forwarders.map (·.session) = s.forwarders.map (·.session) ∧ ∀ f ∈ u.forwarders, ∃ session items,
        s.sessions[f.session]? = some session ∧ session.rid = f.rid ∧
        told f.session u.socket = items.map (texts.response f.rid) ∧
        Heard (doc.sent (s.channel session.channel)) (doc.sent session.opening).length items
          (doc.sent (s.channel session.channel)).length ∧
        ((doc.sent session.opening).length < (doc.sent (s.channel session.channel)).length →
          ∃ notice, items.getLast? = some (.value notice) ∧
            (doc.sent (s.channel session.channel)).getLast? = some notice)) := by
  have both : Faithful doc texts s ∧ Closing doc s :=
    reached.invariant (I := fun s => Faithful doc texts s ∧ Closing doc s) ⟨idle_faithful doc texts, idle_closing doc⟩
      fun _ _ _ both _ taken => ⟨both.1.next taken, both.2.next taken⟩
  have whole : Faithful doc texts u ∧ Closing doc u ∧ moves.length + u.due doc ≤ s.due doc ∧ u.channel = s.channel ∧
      u.sessions = s.sessions ∧ u.forwarders.map (·.session) = s.forwarders.map (·.session) := by
    clear reached
    induction moves generalizing s with
    | nil =>
        cases ran
        exact ⟨both.1, both.2, by simp, rfl, rfl, rfl⟩
    | cons a rest ih =>
        obtain ⟨t, taken, ran⟩ := Option.bind_eq_some_iff.mp ran
        have moved := moved taken (own a List.mem_cons_self)
        obtain ⟨less, channel, sessions, forwarders⟩ := both.1.nearer moved
        obtain ⟨faithful, closing, bound, channel', sessions', forwarders'⟩ :=
          ih (fun a inside => own a (List.mem_cons_of_mem _ inside)) ran ⟨both.1.moved moved, both.2.moved moved⟩
        refine ⟨faithful, closing, ?_, channel'.trans channel, sessions'.trans sessions, forwarders'.trans forwarders⟩
        simp only [List.length_cons]
        omega
  obtain ⟨faithful, closing, bound, channel, sessions, forwarders⟩ := whole
  refine ⟨by omega, fun still => ⟨forwarders, fun f inside => ?_⟩⟩
  obtain ⟨empty, waits⟩ := closing.settled still
  obtain ⟨free, past⟩ := waits f inside
  obtain ⟨session, items, began, rid, same, hears, all⟩ := faithful.serves f inside
  have place := Nat.le_antisymm hears.within past
  rw [free, empty] at all
  simp only [List.append_nil, Option.toList_none] at all
  rw [place, ← same, channel] at hears
  exact ⟨session, items, sessions ▸ began, rid, all, hears.heard, hears.newest rfl⟩

/-- A client that listens to two notices. -/
def sentTwo : List Action := [.subscribe 1, .send 1 ruleTaken, .send 1 ruleTaken]

/-- After six moves the client has read all of it. -/
theorem two_caught_up : ∃ s u : Connection (ring Notice), Reaches (step fewTexts) (fun _ _ => True) (idle (ring Notice)) s ∧
    Machine.run (step fewTexts) reading s = some u ∧ (∀ a : Action, a.delivers → u.step fewTexts a = none) ∧
    u.forwarders.map (·.session) = [0] ∧ reading.length ≤ s.due (ringDocumented Notice) ∧ ∀ f ∈ u.forwarders,
      ∃ session items, s.sessions[f.session]? = some session ∧ told f.session u.socket = items.map (fewTexts.response f.rid) ∧
        Heard (s.channel session.channel).sent session.opening.sent.length items (s.channel session.channel).sent.length := by
  have possible : ((Machine.run (step fewTexts) sentTwo (idle (ring Notice))).bind
      (Machine.run (step fewTexts) reading)).map (fun u => (u.forwarders.map (·.session), u.queue,
        (u.step fewTexts (.receive 0)).isSome, (u.step fewTexts (.forward 0)).isSome)) =
      some ([0], [], false, false) := by decide +kernel
  obtain ⟨u, ran, state⟩ := Option.map_eq_some_iff.mp possible
  obtain ⟨s, behind, ran⟩ := Option.bind_eq_some_iff.mp ran
  simp only [Prod.mk.injEq, Option.isSome_eq_false_iff, Option.isNone_iff_eq_none] at state
  obtain ⟨sessions, empty, received, forwarded⟩ := state
  have alone : u.forwarders.length = 1 := by simpa using congrArg List.length sessions
  have still : ∀ a : Action, a.delivers → u.step fewTexts a = none := by
    intro a own
    cases a with
    | receive i | forward i =>
        cases i with
        | zero => assumption
        | succ i => simp [step, receive, forward, List.getElem?_eq_none (show u.forwarders.length ≤ i + 1 by omega)]
    | write => simp [step, write, empty]
    | _ => cases own
  have reached : Reaches (step fewTexts) (fun _ _ => True) (idle (ring Notice)) s :=
    Machine.reaches_of_run (fun _ _ _ => trivial) behind
  obtain ⟨bound, settled⟩ := catches_up (ringDocumented Notice) reached (by simp [reading, Action.delivers]) ran
  refine ⟨s, u, reached, ran, still, sessions, bound, fun f inside => ?_⟩
  obtain ⟨session, items, began, _, same, heard, _⟩ := (settled still).2 f inside
  exact ⟨session, items, began, same, heard⟩

end

end Connection

end Deltat
