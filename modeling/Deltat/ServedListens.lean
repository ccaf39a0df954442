import Mathlib.Data.List.Nodup
import Deltat.Subscriptions

/-! # An acknowledged LISTEN is served

Once its commands are handled, a connection forwards what was listened to last. The loop tells
resources of one id apart neither in its commands nor in its forwarders, so this takes that no
command and no running forwarder outlives a resource into the next one of its id.
-/

namespace Deltat

open Lib Machine Limits

/-- Whether a resource, here by when it was created, is forwarded after a command. -/
def SubscriptionCommand.leaves (rid : Ulid) (found : Nat) (forwarded : Prop) : SubscriptionCommand → Prop
  | subscribe rid' found' => forwarded ∨ rid' = rid ∧ found' = found
  | unsubscribe rid' => forwarded ∧ rid' ≠ rid
  | unsubscribeAll => False

namespace Subscriptions

variable {s s' : Subscriptions} {a : Action} {rid : Ulid} {found : Nat}

/-! ## Steps -/

/-- A step with everything that makes it possible. -/
inductive Took (s : Subscriptions) : Action → Subscriptions → Prop where
  | create {rid : Ulid} (absent : s.resources rid = none) : Took s (.create rid) { s with
      resources := Function.update s.resources rid (some s.created)
      created := s.created + 1
      listened := Function.update s.listened rid false }
  | delete {rid : Ulid} : Took s (.delete rid)
      { s with resources := Function.update s.resources rid none, hub := s.hub.remove rid }
  | subscribeOther {rid : Ulid} : Took s (.subscribeOther rid) (s.subscribeOther rid)
  | finish {rid : Ulid} {channel : Nat} (closed : s.hub.channels rid ≠ some channel) : Took s (.finish rid channel)
      { s with forwarders := s.forwarders.map fun f =>
        if f = (rid, ⟨channel, false⟩) then (rid, ⟨channel, true⟩) else f }
  | unknown {rid : Ulid} : Took s (.listen rid) s
  | full {rid : Ulid} : Took s (.listen rid) (s.forgetDeleted rid)
  | listen {rid : Ulid} {found : Nat} (quiet : s.subscribing = none) (present : s.resources rid = some found)
      (room : rid ∈ (s.forgetDeleted rid).listening ∨
        (s.forgetDeleted rid).listening.card < maxSubscriptionsPerConnection) :
      Took s (.listen rid) { s with
        listening := {rid} ∪ (s.forgetDeleted rid).listening
        commands := s.commands ++ [.subscribe rid found]
        listened := Function.update s.listened rid true }
  | unlisten {rid : Ulid} (quiet : s.subscribing = none) : Took s (.unlisten rid) { s with
      listening := s.listening.filter (· ≠ rid)
      commands := s.commands ++ [.unsubscribe rid]
      listened := Function.update s.listened rid false }
  | unlistenAll (quiet : s.subscribing = none) : Took s .unlistenAll { s with
      listening := ∅
      commands := s.commands ++ [.unsubscribeAll]
      listened := fun _ => false }
  | served {resolves : Bool} {rid : Ulid} {found : Nat} {rest : List SubscriptionCommand} (quiet : s.subscribing = none)
      (next : s.commands = .subscribe rid found :: rest) (runs : s.Runs rid) :
      Took s (.handle resolves) { s with commands := rest }.pruned
  | forget {resolves : Bool} {rid : Ulid} {found : Nat} {rest : List SubscriptionCommand} (quiet : s.subscribing = none)
      (next : s.commands = .subscribe rid found :: rest) (stands : ¬ s.Runs rid)
      (refused : resolves = false ∨ s.resources rid = none ∨ maxSubscriptionsPerConnection ≤ s.pruned.live) :
      Took s (.handle resolves) ({ s with commands := rest }.pruned.forget rid)
  | check {resolves : Bool} {rid : Ulid} {found : Nat} {rest : List SubscriptionCommand} (quiet : s.subscribing = none)
      (next : s.commands = .subscribe rid found :: rest) (stands : ¬ s.Runs rid) :
      Took s (.handle resolves) { { s with commands := rest }.pruned with subscribing := some (rid, found) }
  | unsubscribe {resolves : Bool} {rid : Ulid} {rest : List SubscriptionCommand} (quiet : s.subscribing = none)
      (next : s.commands = .unsubscribe rid :: rest) : Took s (.handle resolves)
      { s with commands := rest, forwarders := s.forwarders.filter fun f => f.1 ≠ rid }
  | unsubscribeAll {resolves : Bool} {rest : List SubscriptionCommand} (quiet : s.subscribing = none)
      (next : s.commands = .unsubscribeAll :: rest) : Took s (.handle resolves)
      { s with commands := rest, forwarders := [] }
  | attach {rid : Ulid} {found : Nat} (phase : s.subscribing = some (rid, found)) : Took s .attach { s with
      hub := (s.hub.subscribe rid).2
      forwarders := (rid, ⟨(s.hub.subscribe rid).1, false⟩) :: s.forwarders
      subscribing := none }

theorem forgetDeleted_only (rid : Ulid) :
    s.forgetDeleted rid = { s with listening := (s.forgetDeleted rid).listening } := by
  unfold forgetDeleted
  split <;> rfl

theorem mem_pruned {f : Ulid × Forwarder} : f ∈ s.pruned.forwarders ↔ f ∈ s.forwarders ∧ f.2.finished = false := by
  simp [pruned]

theorem containsKey_pruned : s.pruned.containsKey rid = true ↔ s.Runs rid := by
  simp only [containsKey, List.any_eq_true, mem_pruned, decide_eq_true_eq, Runs]
  constructor
  · rintro ⟨⟨_, channel, finished⟩, ⟨inside, running⟩, rfl⟩
    cases running
    exact ⟨channel, inside⟩
  · rintro ⟨channel, inside⟩
    exact ⟨_, ⟨inside, rfl⟩, rfl⟩

theorem took_check {resolves : Bool} {rest : List SubscriptionCommand} (quiet : s.subscribing = none)
    (next : s.commands = .subscribe rid found :: rest) :
    s.Took (.handle resolves) ({ s with commands := rest }.pruned.check resolves rid found) := by
  unfold check
  split
  · next runs => exact .served quiet next (containsKey_pruned.mp runs)
  · next stands =>
      have stands : ¬ s.Runs rid := fun runs => stands (containsKey_pruned.mpr runs)
      split
      · next lost => exact .forget quiet next stands (.inl (by simpa using lost))
      · split
        · next gone => exact .forget quiet next stands (.inr (.inl gone))
        · split
          · next full => exact .forget quiet next stands (.inr (.inr full))
          · exact .check quiet next stands

theorem took (taken : step s a = some s') : s.Took a s' := by
  cases a with
  | create rid =>
      simp only [step, Subscriptions.create] at taken
      split at taken
      · next absent => cases taken; exact .create absent
      · cases taken
  | delete rid =>
      simp only [step, Subscriptions.delete] at taken
      split at taken
      · cases taken; exact .delete
      · cases taken
  | subscribeOther rid => cases taken; exact .subscribeOther
  | finish rid channel =>
      simp only [step, Subscriptions.finish] at taken
      split at taken
      · next can => cases taken; exact .finish can.2
      · cases taken
  | listen rid =>
      simp only [step, Subscriptions.listen] at taken
      split at taken
      · next found quiet present =>
          cases taken
          unfold insert
          split
          · exact .full
          · next room =>
              rw [forgetDeleted_only]
              exact .listen quiet present (by simpa [imp_iff_not_or] using room)
      · cases taken; exact .unknown
      · cases taken
  | unlisten rid =>
      simp only [step, Subscriptions.unlisten] at taken
      split at taken
      · next quiet => cases taken; exact .unlisten quiet
      · cases taken
  | unlistenAll =>
      simp only [step, Subscriptions.unlistenAll] at taken
      split at taken
      · next quiet => cases taken; exact .unlistenAll quiet
      · cases taken
  | handle resolves =>
      simp only [step, Subscriptions.handle] at taken
      split at taken
      · next quiet next => cases taken; exact took_check quiet next
      · next quiet next => cases taken; exact .unsubscribe quiet next
      · next quiet next => cases taken; exact .unsubscribeAll quiet next
      · cases taken
  | attach =>
      simp only [step, Subscriptions.attach] at taken
      split at taken
      · next phase => cases taken; exact .attach phase
      · cases taken

/-! ## What is due -/

/-- A running forwarder of an earlier resource stands for one that exists. -/
def Stale (s : Subscriptions) (rid : Ulid) : Prop :=
  (s.resources rid).isSome ∧ ∃ channel, (rid, ⟨channel, false⟩) ∈ s.forwarders ∧ s.hub.channels rid ≠ some channel

/-- Whether an action mixes no two resources of one id: a subscription finds no forwarder of an
    earlier resource, and no place taken by one, and is for the resource that its LISTEN has found. -/
def Told (s : Subscriptions) : Action → Prop
  | .handle resolves => ∀ rid found rest, s.commands = .subscribe rid found :: rest → (s.resources rid).isSome →
      (s.resources rid = some found → ¬ s.Stale rid) ∧
        (¬ s.Runs rid → resolves = true ∧ (s.pruned.live < maxSubscriptionsPerConnection ∨ ∀ r, ¬ s.Stale r))
  | .attach => ∀ rid found, s.subscribing = some (rid, found) → s.resources rid = some found
  | _ => True

/-- The commands on their way, the one in hand first. -/
def pending (s : Subscriptions) : List SubscriptionCommand :=
  (s.subscribing.toList.map fun p => .subscribe p.1 p.2) ++ s.commands

/-- Whether a resource is forwarded after some commands. -/
def Due (s : Subscriptions) (commands : List SubscriptionCommand) (rid : Ulid) (found : Nat) : Prop :=
  commands.foldl (fun forwarded c => c.leaves rid found forwarded) (s.Forwards rid)

theorem due_append {commands : List SubscriptionCommand} {c : SubscriptionCommand} :
    s.Due (commands ++ [c]) rid found ↔ c.leaves rid found (s.Due commands rid found) := by
  simp [Due]

theorem due_congr {commands : List SubscriptionCommand} (same : s'.Forwards rid ↔ s.Forwards rid) :
    s'.Due commands rid found ↔ s.Due commands rid found := by
  rw [Due, Due, propext same]

theorem due_cons {c : SubscriptionCommand} {rest : List SubscriptionCommand}
    (after : s'.Forwards rid ↔ c.leaves rid found (s.Forwards rid)) :
    s'.Due rest rid found ↔ s.Due (c :: rest) rid found := by
  rw [Due, Due, List.foldl_cons, propext after]

/-- What is due is forwarded or subscribed to on the way. -/
theorem Due.named {commands : List SubscriptionCommand} (due : s.Due commands rid found) :
    s.Forwards rid ∨ .subscribe rid found ∈ commands := by
  induction commands using List.reverseRecOn with
  | nil => exact .inl due
  | append_singleton front c ih =>
      rw [due_append] at due
      rw [List.mem_append, List.mem_singleton]
      cases c with
      | subscribe r f =>
          rcases due with before | ⟨rfl, rfl⟩
          · exact (ih before).imp_right .inl
          · exact .inr (.inr rfl)
      | unsubscribe r => exact (ih due.1).imp_right .inl
      | unsubscribeAll => exact due.elim

/-- How resources, channels and forwarders fit together. -/
structure Wired (s : Subscriptions) : Prop where
  created : ∀ rid found, s.resources rid = some found → found < s.created
  opened : ∀ rid channel, s.hub.channels rid = some channel → channel < s.hub.opened
  started : ∀ f ∈ s.forwarders, f.2.channel < s.hub.opened
  keys : (s.forwarders.map (·.1)).Nodup
  present : ∀ rid, s.Forwards rid → (s.resources rid).isSome
  fresh : ∀ rid found, s.subscribing = some (rid, found) → rid ∉ s.forwarders.map (·.1)
  named : ∀ rid found, .subscribe rid found ∈ s.pending → found < s.created

/-- What is due once all commands are handled is what was listened to, and at no time more than
    a connection may have. -/
structure Agrees (s : Subscriptions) : Prop where
  due : ∀ rid found, s.resources rid = some found → (s.Due s.pending rid found ↔ s.listened rid = true)
  listening : ∀ rid, (s.resources rid).isSome → s.listened rid = true → rid ∈ s.listening
  room : s.listening.card ≤ maxSubscriptionsPerConnection
  ahead : ∀ front rid found back, s.pending = front ++ .subscribe rid found :: back →
    ∃ places : Finset Ulid, places.card ≤ maxSubscriptionsPerConnection ∧ rid ∈ places ∧
      ∀ r f, s.resources r = some f → s.Due front r f → r ∈ places
  forwarded : ∃ places : Finset Ulid, places.card ≤ maxSubscriptionsPerConnection ∧ ∀ r, s.Forwards r → r ∈ places

/-! ## What a step does to forwarding -/

theorem pruned_forwards : s.pruned.Forwards rid ↔ s.Forwards rid := by
  simp only [Forwards, mem_pruned, and_true]
  rfl

theorem delete_forwards {r : Ulid} : Forwards { s with
    resources := Function.update s.resources rid none, hub := s.hub.remove rid } r ↔ s.Forwards r ∧ r ≠ rid := by
  by_cases same : r = rid <;> simp [Forwards, NotifyHub.remove, same]

theorem Wired.subscribe_forwards (wired : s.Wired) {r : Ulid} : (s.subscribeOther rid).Forwards r ↔ s.Forwards r := by
  unfold Forwards subscribeOther NotifyHub.subscribe
  split
  · rfl
  · next closed =>
      by_cases same : r = rid
      · subst same
        simp only [Function.update_self, closed]
        refine ⟨?_, fun ⟨_, known, _⟩ => nomatch known⟩
        rintro ⟨channel, opened, inside⟩
        cases opened
        exact absurd (wired.started _ inside) (Nat.lt_irrefl _)
      · simp only [Function.update_of_ne same]

theorem finish_forwards {channel : Nat} (closed : s.hub.channels rid ≠ some channel) {r : Ulid} :
    Forwards { s with forwarders := s.forwarders.map fun f =>
      if f = (rid, ⟨channel, false⟩) then (rid, ⟨channel, true⟩) else f } r ↔ s.Forwards r := by
  simp only [Forwards, List.mem_map]
  apply exists_congr
  intro c
  refine and_congr_right fun current => ⟨?_, fun inside => ⟨_, inside, ?_⟩⟩
  · rintro ⟨f, inside, same⟩
    split at same
    · cases same
    · exact same ▸ inside
  · rw [if_neg]
    rintro ⟨⟩
    exact closed current

theorem unsubscribe_forwards {rest : List SubscriptionCommand} {r : Ulid} : Forwards { s with
    commands := rest, forwarders := s.forwarders.filter fun f => f.1 ≠ rid } r ↔ s.Forwards r ∧ rid ≠ r := by
  by_cases same : r = rid
  · simp [Forwards, same]
  · simp [Forwards, same, Ne.symm same]

theorem unsubscribeAll_forwards {rest : List SubscriptionCommand} {r : Ulid} :
    ¬ Forwards { s with commands := rest, forwarders := [] } r := by
  rintro ⟨_, _, inside⟩
  cases inside

theorem attach_forwards {r : Ulid} : Forwards { s with
    hub := (s.hub.subscribe rid).2
    forwarders := (rid, ⟨(s.hub.subscribe rid).1, false⟩) :: s.forwarders
    subscribing := none } r ↔ (s.subscribeOther rid).Forwards r ∨ rid = r := by
  have self : (s.hub.subscribe rid).2.channels rid = some (s.hub.subscribe rid).1 := by
    unfold NotifyHub.subscribe
    split
    · next opened => exact opened
    · exact Function.update_self ..
  constructor
  · rintro ⟨channel, opened, inside⟩
    rcases List.mem_cons.mp inside with now | before
    · cases now
      exact .inr rfl
    · exact .inl ⟨channel, opened, before⟩
  · rintro (⟨channel, opened, before⟩ | rfl)
    · exact ⟨channel, opened, List.mem_cons_of_mem _ before⟩
    · exact ⟨_, self, List.mem_cons_self⟩

/-! ## Every step keeps it -/

theorem idle_wired : Wired idle where
  created _ _ found := nomatch found
  opened _ _ found := nomatch found
  started _ inside := (List.not_mem_nil inside).elim
  keys := List.nodup_nil
  present _ forwards := (List.not_mem_nil forwards.choose_spec.2).elim
  fresh _ _ found := nomatch found
  named _ _ inside := (List.not_mem_nil inside).elim

theorem subscribe_opened (rid : Ulid) {hub : NotifyHub} (opened : ∀ r c, hub.channels r = some c → c < hub.opened) :
    hub.opened ≤ (hub.subscribe rid).2.opened ∧ (hub.subscribe rid).1 < (hub.subscribe rid).2.opened ∧
      ∀ r c, (hub.subscribe rid).2.channels r = some c → c < (hub.subscribe rid).2.opened := by
  unfold NotifyHub.subscribe
  split
  · next current => exact ⟨le_rfl, opened _ _ current, opened⟩
  · refine ⟨Nat.le_succ _, Nat.lt_succ_self _, fun r c found => ?_⟩
    simp only [Function.update_apply] at found
    split at found
    · cases found
      exact Nat.lt_succ_self _
    · exact (opened r c found).trans (Nat.lt_succ_self _)

/-- Forwarders may go, and commands be handled. -/
theorem Wired.fewer (wired : s.Wired) {forwarders : List (Ulid × Forwarder)} {commands : List SubscriptionCommand}
    (fewer : forwarders.Sublist s.forwarders) (handled : ∀ c ∈ commands, c ∈ s.commands) :
    Wired { s with forwarders := forwarders, commands := commands } where
  created := wired.created
  opened := wired.opened
  started f inside := wired.started f (fewer.subset inside)
  keys := (fewer.map _).nodup wired.keys
  present r forwards := wired.present r (forwards.imp fun _ both => ⟨both.1, fewer.subset both.2⟩)
  fresh r found phase inside := wired.fresh r found phase ((fewer.map _).subset inside)
  named r found inside := wired.named r found ((List.mem_append.mp inside).elim (List.mem_append_left _)
    fun queued => List.mem_append_right _ (handled _ queued))

theorem Wired.took (wired : s.Wired) (took : s.Took a s') (told : s.Told a) : s'.Wired := by
  cases took with
  | unknown => exact wired
  | full =>
      rw [forgetDeleted_only]
      exact { wired with }
  | @create rid absent =>
      refine { wired with created := fun r found present => ?_, present := fun r forwards => ?_, named := ?_ }
      · simp only [Function.update_apply] at present
        split at present
        · cases present
          exact Nat.lt_succ_self _
        · exact (wired.created r found present).trans (Nat.lt_succ_self _)
      · simp only [Function.update_apply]
        split
        · rfl
        · exact wired.present r forwards
      · exact fun r found inside => (wired.named r found inside).trans (Nat.lt_succ_self _)
  | @delete rid =>
      refine { wired with created := fun r found present => ?_, opened := fun r c current => ?_, present := ?_ }
      · simp only [Function.update_apply] at present
        split at present
        · cases present
        · exact wired.created r found present
      · simp only [NotifyHub.remove, Function.update_apply] at current
        split at current
        · cases current
        · exact wired.opened r c current
      · intro r forwards
        obtain ⟨forwards, other⟩ := delete_forwards.mp forwards
        simp only [Function.update_of_ne other]
        exact wired.present r forwards
  | @subscribeOther rid =>
      obtain ⟨more, _, opened⟩ := subscribe_opened rid wired.opened
      exact { wired with
        opened
        started := fun f inside => (wired.started f inside).trans_le more
        present := fun r forwards => wired.present r (wired.subscribe_forwards.mp forwards) }
  | @finish rid channel closed =>
      have keys : (s.forwarders.map fun f => if f = (rid, ⟨channel, false⟩) then (rid, ⟨channel, true⟩) else f).map
          (·.1) = s.forwarders.map (·.1) := by
        rw [List.map_map]
        apply List.map_congr_left
        intro f _
        simp only [Function.comp_apply]
        split
        · next same => rw [same]
        · rfl
      refine { wired with started := fun f inside => ?_, keys := keys ▸ wired.keys, present := ?_, fresh := ?_ }
      · obtain ⟨g, before, rfl⟩ := List.mem_map.mp inside
        split
        · next same => exact wired.started (rid, ⟨channel, false⟩) (same ▸ before)
        · exact wired.started g before
      · exact fun r forwards => wired.present r ((finish_forwards closed).mp forwards)
      · intro r found phase inside
        rw [keys] at inside
        exact wired.fresh r found phase inside
  | @listen rid found quiet present =>
      refine { wired with fresh := fun _ _ phase => (nomatch quiet.symm.trans phase), named := fun r f inside => ?_ }
      rw [pending, ← List.append_assoc, List.mem_append, List.mem_singleton] at inside
      rcases inside with before | now
      · exact wired.named r f before
      · cases now
        exact wired.created rid found present
  | @unlisten rid quiet =>
      refine { wired with named := fun r f inside => wired.named r f ?_ }
      simpa [pending] using inside
  | unlistenAll quiet =>
      refine { wired with named := fun r f inside => wired.named r f ?_ }
      simpa [pending] using inside
  | @served _ rid found rest quiet next =>
      exact wired.fewer (List.filter_sublist ..) fun c inside => next ▸ List.mem_cons_of_mem _ inside
  | @forget _ rid found rest quiet next =>
      exact { wired.fewer (List.filter_sublist ..) fun c inside => next ▸ List.mem_cons_of_mem _ inside with }
  | @check _ rid found rest quiet next stands =>
      have fewer : Wired { s with commands := rest }.pruned :=
        wired.fewer (List.filter_sublist ..) fun c inside => next ▸ List.mem_cons_of_mem _ inside
      refine { fewer with fresh := fun r f phase inside => ?_, named := fun r f inside => wired.named r f ?_ }
      · cases phase
        obtain ⟨⟨_, channel, finished⟩, inside, rfl⟩ := List.mem_map.mp inside
        obtain ⟨inside, running⟩ := mem_pruned.mp inside
        cases running
        exact stands ⟨channel, inside⟩
      · rw [pending, quiet, next]
        exact inside
  | @unsubscribe _ rid rest quiet next =>
      exact wired.fewer (List.filter_sublist ..) fun c inside => next ▸ List.mem_cons_of_mem _ inside
  | @unsubscribeAll _ rest quiet next =>
      exact wired.fewer (List.nil_sublist _) fun c inside => next ▸ List.mem_cons_of_mem _ inside
  | @attach rid found phase =>
      obtain ⟨more, now, opened⟩ := subscribe_opened rid wired.opened
      refine { wired with opened, started := ?_, keys := ?_, present := ?_, fresh := fun _ _ same => (nomatch same), named := ?_ }
      · intro f inside
        rcases List.mem_cons.mp inside with rfl | before
        · exact now
        · exact (wired.started f before).trans_le more
      · exact List.nodup_cons.mpr ⟨wired.fresh rid found phase, wired.keys⟩
      · intro r forwards
        rcases attach_forwards.mp forwards with before | rfl
        · exact wired.present r (wired.subscribe_forwards.mp before)
        · exact Option.isSome_of_eq_some (told rid found phase)
      · exact fun r f inside => wired.named r f (List.mem_append_right _ inside)

theorem idle_agrees : Agrees idle where
  due _ _ found := nomatch found
  listening _ _ listened := nomatch listened
  room := Nat.zero_le _
  ahead _ _ _ _ split := by simp [pending, idle] at split
  forwarded := ⟨∅, Nat.zero_le _, fun _ forwards => (List.not_mem_nil forwards.choose_spec.2).elim⟩

/-- With the same commands on their way, what is forwarded may only go with its resource. -/
theorem Agrees.same (agrees : s.Agrees) (pending : s'.pending = s.pending) (listened : s'.listened = s.listened)
    (resources : ∀ r f, s'.resources r = some f → s.resources r = some f)
    (fewer : ∀ r, s'.Forwards r → s.Forwards r)
    (forwards : ∀ r f, s'.resources r = some f → (s'.Forwards r ↔ s.Forwards r))
    (listening : s'.listening ⊆ s.listening)
    (kept : ∀ r, (s'.resources r).isSome → r ∈ s.listening → r ∈ s'.listening) : s'.Agrees where
  due r f present := by
    rw [pending, listened, due_congr (forwards r f present)]
    exact agrees.due r f (resources r f present)
  listening r present isListened := by
    obtain ⟨f, found⟩ := Option.isSome_iff_exists.mp present
    rw [listened] at isListened
    exact kept r present (agrees.listening r (Option.isSome_of_eq_some (resources r f found)) isListened)
  room := (Finset.card_le_card listening).trans agrees.room
  ahead front rid found back split := by
    obtain ⟨places, few, inside, all⟩ := agrees.ahead front rid found back (pending ▸ split)
    refine ⟨places, few, inside, fun r f present due => all r f (resources r f present) ?_⟩
    exact (due_congr (forwards r f present)).mp due
  forwarded := by
    obtain ⟨places, few, all⟩ := agrees.forwarded
    exact ⟨places, few, fun r forwarded => all r (fewer r forwarded)⟩

/-- A command has been handled: what it leaves forwarded is. -/
theorem Agrees.handled (agrees : s.Agrees) {c : SubscriptionCommand} (pending : s.pending = c :: s'.pending)
    (listened : s'.listened = s.listened) (resources : s'.resources = s.resources)
    (forwards : ∀ r f, s.resources r = some f → (s'.Forwards r ↔ c.leaves r f (s.Forwards r)))
    (listening : s'.listening ⊆ s.listening) (kept : ∀ r, (s.resources r).isSome → r ∈ s.listening → r ∈ s'.listening)
    (forwarded : ∃ places : Finset Ulid, places.card ≤ maxSubscriptionsPerConnection ∧ ∀ r, s'.Forwards r → r ∈ places) :
    s'.Agrees where
  due r f present := by
    rw [resources] at present
    rw [listened, due_cons (forwards r f present), ← pending]
    exact agrees.due r f present
  listening r present isListened := by
    rw [resources] at present
    rw [listened] at isListened
    exact kept r present (agrees.listening r present isListened)
  room := (Finset.card_le_card listening).trans agrees.room
  ahead front rid found back split := by
    obtain ⟨places, few, inside, all⟩ := agrees.ahead (c :: front) rid found back (by rw [pending, split]; rfl)
    refine ⟨places, few, inside, fun r f present due => ?_⟩
    rw [resources] at present
    exact all r f present ((due_cons (forwards r f present)).mp due)
  forwarded := forwarded

/-- Without forwarders of earlier resources there is room for one that LISTEN has let in. -/
theorem Agrees.live_lt (agrees : s.Agrees) (wired : s.Wired) {rest : List SubscriptionCommand} (quiet : s.subscribing = none)
    (next : s.commands = .subscribe rid found :: rest) (stands : ¬ s.Runs rid) (told : ∀ r, ¬ s.Stale r) :
    s.pruned.live < maxSubscriptionsPerConnection := by
  obtain ⟨places, few, inside, all⟩ := agrees.ahead [] rid found rest (by simp [pending, quiet, next])
  have nodup : (s.pruned.forwarders.filter fun f => (s.resources f.1).isSome).map (·.1) |>.Nodup :=
    ((List.filter_sublist.trans List.filter_sublist).map _).nodup wired.keys
  have others : ∀ r ∈ (s.pruned.forwarders.filter fun f => (s.resources f.1).isSome).map (·.1), r ∈ places.erase rid := by
    intro r listed
    obtain ⟨⟨r, channel, finished⟩, entry, rfl⟩ := List.mem_map.mp listed
    obtain ⟨entry, present⟩ := List.mem_filter.mp entry
    obtain ⟨entry, running⟩ := mem_pruned.mp entry
    cases running
    obtain ⟨f, found⟩ := Option.isSome_iff_exists.mp present
    have current : s.hub.channels r = some channel := by
      by_contra other
      exact told r ⟨present, channel, entry, other⟩
    apply Finset.mem_erase.mpr
    exact ⟨fun same => stands ⟨channel, same ▸ entry⟩, all r f found ⟨channel, current, entry⟩⟩
  calc s.pruned.live = (s.pruned.forwarders.filter fun f => (s.resources f.1).isSome).length := rfl
    _ = ((s.pruned.forwarders.filter fun f => (s.resources f.1).isSome).map (·.1)).toFinset.card := by
        rw [List.toFinset_card_of_nodup nodup, List.length_map]
    _ ≤ (places.erase rid).card := Finset.card_le_card fun r inside => others r (List.mem_toFinset.mp inside)
    _ < places.card := Finset.card_erase_lt_of_mem inside
    _ ≤ maxSubscriptionsPerConnection := few

/-- The last of some commands, or one before it. -/
theorem split_last {c d : SubscriptionCommand} {commands front back : List SubscriptionCommand}
    (split : commands ++ [c] = front ++ d :: back) :
    (front = commands ∧ d = c) ∨ ∃ back', commands = front ++ d :: back' := by
  rcases List.eq_nil_or_concat back with rfl | ⟨back', e, rfl⟩
  · obtain ⟨rfl, same⟩ := List.append_inj' split rfl
    cases same
    exact .inl ⟨rfl, rfl⟩
  · rw [List.concat_eq_append, ← List.cons_append, ← List.append_assoc] at split
    exact .inr ⟨back', (List.append_inj' split rfl).1⟩

theorem Agrees.create (agrees : s.Agrees) (wired : s.Wired) (absent : s.resources rid = none) : Agrees { s with
    resources := Function.update s.resources rid (some s.created)
    created := s.created + 1
    listened := Function.update s.listened rid false } := by
  -- Nothing on its way and no open channel is the new resource's.
  have undue : ∀ front back, s.pending = front ++ back → ¬ s.Due front rid s.created := by
    intro front back split due
    rcases due.named with forwards | inside
    · have present := wired.present rid forwards
      rw [absent] at present
      cases present
    · exact absurd (wired.named rid _ (split ▸ List.mem_append_left _ inside)) (Nat.lt_irrefl _)
  refine { agrees with due := fun r f present => ?_, listening := fun r present isListened => ?_, ahead := ?_ }
  · simp only [Function.update_apply] at present ⊢
    split at present
    · next same =>
        subst same
        cases present
        rw [if_pos rfl]
        exact iff_of_false (undue s.pending [] (List.append_nil _).symm) Bool.false_ne_true
    · next other =>
        rw [if_neg other]
        exact agrees.due r f present
  · simp only [Function.update_apply] at present isListened
    split at isListened
    · cases isListened
    · next other =>
        rw [if_neg other] at present
        exact agrees.listening r present isListened
  · intro front r f back split
    obtain ⟨places, few, inside, all⟩ := agrees.ahead front r f back split
    refine ⟨places, few, inside, fun r' f' present due => ?_⟩
    simp only [Function.update_apply] at present
    split at present
    · next same =>
        subst same
        cases present
        exact absurd due (undue front _ split)
    · exact all r' f' present due

theorem Agrees.listen (agrees : s.Agrees) (present : s.resources rid = some found)
    (room : rid ∈ (s.forgetDeleted rid).listening ∨
      (s.forgetDeleted rid).listening.card < maxSubscriptionsPerConnection) : Agrees { s with
        listening := {rid} ∪ (s.forgetDeleted rid).listening
        commands := s.commands ++ [.subscribe rid found]
        listened := Function.update s.listened rid true } := by
  have fewer : (s.forgetDeleted rid).listening ⊆ s.listening := by
    unfold forgetDeleted
    split
    · exact Finset.filter_subset ..
    · exact subset_rfl
  have kept : ∀ r, (s.resources r).isSome → r ∈ s.listening → r ∈ (s.forgetDeleted rid).listening := by
    intro r there inside
    unfold forgetDeleted
    split
    · exact Finset.mem_filter.mpr ⟨inside, there⟩
    · exact inside
  have places : ({rid} ∪ (s.forgetDeleted rid).listening).card ≤ maxSubscriptionsPerConnection := by
    rcases room with inside | less
    · rw [Finset.union_eq_right.mpr (Finset.singleton_subset_iff.mpr inside)]
      exact (Finset.card_le_card fewer).trans agrees.room
    · calc ({rid} ∪ (s.forgetDeleted rid).listening).card
          ≤ 1 + (s.forgetDeleted rid).listening.card := Finset.card_union_le ..
        _ ≤ maxSubscriptionsPerConnection := by omega
  have pending : ∀ commands : List SubscriptionCommand, s.pending ++ commands =
      pending { s with commands := s.commands ++ commands } := fun commands => List.append_assoc ..
  refine { agrees with due := fun r f found' => ?_, listening := fun r there isListened => ?_, room := places, ahead := ?_ }
  · refine (iff_of_eq (congrArg (s.Due · r f) (pending _).symm)).trans (due_append.trans ?_)
    simp only [SubscriptionCommand.leaves, agrees.due r f found', Function.update_apply]
    split
    · next same =>
        subst same
        cases present.symm.trans found'
        simp
    · next other => simp [Ne.symm other]
  · simp only [Function.update_apply] at isListened
    split at isListened
    · next same => exact Finset.mem_union_left _ (Finset.mem_singleton.mpr same)
    · exact Finset.mem_union_right _ (kept r there (agrees.listening r there isListened))
  · intro front r f back split
    rcases split_last ((pending _).trans split) with ⟨rfl, same⟩ | ⟨back', split⟩
    · cases same
      refine ⟨_, places, Finset.mem_union_left _ (Finset.mem_singleton_self _), fun r f found' due => ?_⟩
      have there := Option.isSome_of_eq_some found'
      exact Finset.mem_union_right _ (kept r there (agrees.listening r there ((agrees.due r f found').mp due)))
    · exact agrees.ahead front r f back' split

/-- A statement takes back resources. -/
theorem Agrees.unlisten (agrees : s.Agrees) {c : SubscriptionCommand} {listening : Finset Ulid} {listened : Ulid → Bool}
    (other : ∀ r f, c ≠ .subscribe r f)
    (taken : ∀ r f, c.leaves r f (s.listened r = true) ↔ listened r = true)
    (kept : ∀ r, listened r = true → r ∈ s.listening → r ∈ listening) (fewer : listening ⊆ s.listening)
    (still : ∀ r, listened r = true → s.listened r = true) :
    Agrees { s with listening, commands := s.commands ++ [c], listened } := by
  have pending : s.pending ++ [c] = pending { s with commands := s.commands ++ [c] } := List.append_assoc ..
  refine { agrees with due := fun r f found => ?_, listening := fun r present isListened => ?_, room := ?_, ahead := ?_ }
  · refine (iff_of_eq (congrArg (s.Due · r f) pending.symm)).trans (due_append.trans ?_)
    rw [propext (agrees.due r f found)]
    exact taken r f
  · exact kept r isListened (agrees.listening r present (still r isListened))
  · exact (Finset.card_le_card fewer).trans agrees.room
  · intro front r f back split
    rcases split_last (pending.trans split) with ⟨_, same⟩ | ⟨back', split⟩
    · exact absurd same.symm (other r f)
    · exact agrees.ahead front r f back' split

theorem Agrees.took (agrees : s.Agrees) (wired : s.Wired) (took : s.Took a s') (told : s.Told a) : s'.Agrees := by
  have fewer : ∃ places : Finset Ulid, places.card ≤ maxSubscriptionsPerConnection ∧ ∀ r, s.Forwards r → r ∈ places :=
    agrees.forwarded
  have running : ∀ r, s.pruned.Forwards r ↔ s.Forwards r := fun _ => pruned_forwards
  cases took with
  | unknown => exact agrees
  | @full rid =>
      rw [forgetDeleted_only]
      unfold forgetDeleted
      split
      · refine agrees.same rfl rfl (fun _ _ => id) (fun _ => id) (fun _ _ _ => .rfl) (Finset.filter_subset ..) ?_
        exact fun r present inside => Finset.mem_filter.mpr ⟨inside, present⟩
      · exact agrees
  | create absent => exact agrees.create wired absent
  | @delete rid =>
      have present : ∀ r f, Function.update s.resources rid none r = some f → r ≠ rid ∧ s.resources r = some f := by
        intro r f found
        rw [Function.update_apply] at found
        split at found
        · cases found
        · next other => exact ⟨other, found⟩
      exact agrees.same rfl rfl (fun r f found => (present r f found).2) (fun r forwards => (delete_forwards.mp forwards).1)
        (fun r f found => delete_forwards.trans (and_iff_left (present r f found).1)) subset_rfl (fun _ _ => id)
  | subscribeOther =>
      exact agrees.same rfl rfl (fun _ _ => id) (fun _ => wired.subscribe_forwards.mp)
        (fun _ _ _ => wired.subscribe_forwards) subset_rfl (fun _ _ => id)
  | finish closed =>
      exact agrees.same rfl rfl (fun _ _ => id) (fun _ => (finish_forwards closed).mp)
        (fun _ _ _ => finish_forwards closed) subset_rfl (fun _ _ => id)
  | listen _ present room => exact agrees.listen present room
  | @unlisten rid =>
      refine agrees.unlisten (fun _ _ same => nomatch same) (fun r _ => ?_) (fun r isListened inside => ?_)
        (Finset.filter_subset ..) (fun r isListened => ?_)
      · by_cases same : r = rid
        · simp [SubscriptionCommand.leaves, same]
        · simp [SubscriptionCommand.leaves, same, Ne.symm same]
      · rw [Finset.mem_filter]
        refine ⟨inside, fun same => ?_⟩
        simp [same] at isListened
      · rw [Function.update_apply] at isListened
        split at isListened
        · cases isListened
        · exact isListened
  | unlistenAll =>
      exact agrees.unlisten (fun _ _ same => nomatch same) (fun _ _ => iff_of_false id Bool.false_ne_true)
        (fun _ isListened => nomatch isListened) (Finset.empty_subset _) (fun _ isListened => nomatch isListened)
  | @served _ rid found rest quiet next runs =>
      refine agrees.handled (by simp only [pending, quiet, next]; rfl) rfl rfl (fun r f present => ?_) subset_rfl
        (fun _ _ => id) (fewer.imp fun _ => And.imp_right fun all r forwards => all r ((running r).mp forwards))
      refine (running r).trans ⟨Or.inl, ?_⟩
      rintro (forwards | ⟨rfl, rfl⟩)
      · exact forwards
      · obtain ⟨channel, inside⟩ := runs
        have there := Option.isSome_of_eq_some present
        refine ⟨channel, ?_, inside⟩
        by_contra other
        exact (told rid found rest next there).1 present ⟨there, channel, inside, other⟩
  | @forget _ rid found rest quiet next stands refused =>
      have gone : s.resources rid = none := by
        rw [← Option.not_isSome_iff_eq_none]
        intro there
        obtain ⟨resolves, free⟩ := (told rid found rest next there).2 stands
        rcases refused with lost | gone | full
        · rw [resolves] at lost
          cases lost
        · rw [gone] at there
          cases there
        · exact absurd (free.elim id (agrees.live_lt wired quiet next stands)) (Nat.not_lt.mpr full)
      refine agrees.handled (by simp only [pending, quiet, next]; rfl) rfl rfl (fun r f present => ?_)
        (Finset.filter_subset ..) (fun r there inside => Finset.mem_filter.mpr ⟨inside, fun same => ?_⟩)
        (fewer.imp fun _ => And.imp_right fun all r forwards => all r ((running r).mp forwards))
      · refine (running r).trans ⟨Or.inl, ?_⟩
        rintro (forwards | ⟨rfl, _⟩)
        · exact forwards
        · cases gone.symm.trans present
      · rw [same, gone] at there
        cases there
  | @check _ rid found rest quiet next stands =>
      exact agrees.same (by simp only [pending, quiet, next]; rfl) rfl (fun _ _ => id) (fun r => (running r).mp)
        (fun r _ _ => running r) subset_rfl (fun _ _ => id)
  | @unsubscribe _ rid rest quiet next =>
      exact agrees.handled (by simp only [pending, quiet, next]; rfl) rfl rfl (fun _ _ _ => unsubscribe_forwards)
        subset_rfl (fun _ _ => id)
        (fewer.imp fun _ => And.imp_right fun all r forwards => all r (unsubscribe_forwards.mp forwards).1)
  | @unsubscribeAll _ rest quiet next =>
      exact agrees.handled (by simp only [pending, quiet, next]; rfl) rfl rfl
        (fun _ _ _ => iff_of_false unsubscribeAll_forwards id) subset_rfl (fun _ _ => id)
        (fewer.imp fun _ => And.imp_right fun _ r forwards => absurd forwards unsubscribeAll_forwards)
  | @attach rid found phase =>
      have next : s.pending = .subscribe rid found :: s.commands := by simp only [pending, phase]; rfl
      refine agrees.handled next rfl rfl (fun r f present => ?_) subset_rfl (fun _ _ => id) ?_
      · refine attach_forwards.trans (or_congr wired.subscribe_forwards ⟨?_, And.left⟩)
        rintro rfl
        cases (told rid found phase).symm.trans present
        exact ⟨rfl, rfl⟩
      · obtain ⟨places, few, inside, all⟩ := agrees.ahead [] rid found s.commands next
        refine ⟨places, few, fun r forwards => ?_⟩
        rcases attach_forwards.mp forwards with before | rfl
        · have forwards := wired.subscribe_forwards.mp before
          obtain ⟨f, present⟩ := Option.isSome_iff_exists.mp (wired.present r forwards)
          exact all r f present forwards
        · exact inside

/-- Once its commands are handled, a connection forwards exactly what was listened to last, and
    it never forwards more resources than a connection may. -/
theorem listens_served (reached : Reaches step Told idle s) :
    (s.commands = [] → s.subscribing = none → ∀ r, (s.resources r).isSome → (s.Forwards r ↔ s.listened r = true)) ∧
      ∀ resources : Finset Ulid, (∀ r ∈ resources, (s.resources r).isSome ∧ s.Forwards r) →
        resources.card ≤ maxSubscriptionsPerConnection := by
  obtain ⟨wired, agrees⟩ : s.Wired ∧ s.Agrees := by
    apply reached.invariant ⟨idle_wired, idle_agrees⟩
    intro s a s' inv told taken
    exact ⟨inv.1.took (took taken) told, inv.2.took inv.1 (took taken) told⟩
  refine ⟨fun handled quiet r present => ?_, fun resources forwarded => ?_⟩
  · obtain ⟨f, found⟩ := Option.isSome_iff_exists.mp present
    have due := agrees.due r f found
    rw [pending, quiet, handled] at due
    exact due
  · obtain ⟨places, few, all⟩ := agrees.forwarded
    exact (Finset.card_le_card fun r inside => all r (forwarded r inside).2).trans few

/-- With no forwarder running there is nothing to mix up. -/
theorem told_handle (finished : ∀ f ∈ s.forwarders, f.2.finished = true) : s.Told (.handle true) := by
  have nothing : s.pruned.forwarders = [] := List.filter_eq_nil_iff.mpr fun f inside => by simp [finished f inside]
  have fresh : ∀ r, ¬ s.Stale r := fun r stale => nomatch finished _ stale.2.choose_spec.1
  exact fun rid _ _ _ _ => ⟨fun _ => fresh rid, fun _ => ⟨rfl, .inr fresh⟩⟩

/-- A resource deleted and created again, listened to before and after. -/
theorem relisten_served : ∃ s, Reaches step Told idle s ∧ (s.Forwards 1 ↔ s.listened 1 = true) ∧ s.listened 1 = true := by
  have ran₁ : run step [.create 1, .listen 1] idle = some _ := rfl
  have reached₁ : Reaches step Told idle _ := Machine.reaches_of_run (by simp [Told]) ran₁
  have reached₂ := reached₁.next (.handle true) (told_handle (by decide)) rfl
  have reached₃ := reached₂.next .attach (by rintro _ _ ⟨⟩; rfl) rfl
  have deleted := (reached₃.next (.delete 1) (by simp [Told]) rfl).next (.finish 1 0) (by simp [Told]) rfl
  have reached₄ := (deleted.next (.create 1) (by simp [Told]) rfl).next (.listen 1) (by simp [Told]) rfl
  have reached₅ := reached₄.next (.handle true) (told_handle (by decide)) rfl
  have reached₆ := reached₅.next .attach (by rintro _ _ ⟨⟩; rfl) rfl
  exact ⟨_, reached₆, (listens_served reached₆).1 rfl rfl 1 rfl, rfl⟩

/-- A LISTEN finds a forwarder of the deleted resource running, and is never served. -/
theorem relisten_lost : ¬ ∀ s, Reaches step (fun _ _ => True) idle s →
    (s.commands = [] → s.subscribing = none → ∀ r, (s.resources r).isSome → (s.Forwards r ↔ s.listened r = true)) ∧
      ∀ resources : Finset Ulid, (∀ r ∈ resources, (s.resources r).isSome ∧ s.Forwards r) →
        resources.card ≤ maxSubscriptionsPerConnection := by
  intro served
  have ran : run step [.create 1, .listen 1, .handle true, .attach, .delete 1, .create 1, .listen 1, .handle true]
    idle = some _ := rfl
  have reached : Reaches step (fun _ _ => True) idle _ := Machine.reaches_of_run (fun _ _ _ => trivial) ran
  obtain ⟨channel, closed, _⟩ := ((served _ reached).1 rfl rfl 1 rfl).mpr rfl
  cases closed

end Subscriptions

end Deltat
