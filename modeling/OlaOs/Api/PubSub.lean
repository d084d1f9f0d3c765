import OlaOs.Dal.Events
import OlaOs.Lib.Broadcast
import OlaOs.Lib.Transition

/-! The subscriptions of the API (`api_server/web3/pubsub.rs`, `web3_decl/src/types.rs`): notifiers
broadcast their results, and one task for each subscription sends them on to its sink. -/
namespace OlaOs

inductive SubscriptionType where
  | blocks
  | txs
  | logs
  | l1BatchProofs
  deriving DecidableEq

inductive PubSubResult where
  | log (log : Api.Log)
  | txHash (hash : H256)
  | syncing (value : Bool)
  | l1BatchProof (l1BatchNumber : ℕ) (proveBatchesData : List UInt8)
  deriving DecidableEq

/-- `PubSubFilter`; a value or an array of values is the list of them. -/
structure PubSubFilter where
  address : Option (List H256) := none
  topics : Option (List (Option (List H256))) := none

namespace PubSubFilter

/-- `matches` -/
def matchesLog (filter : PubSubFilter) (log : Api.Log) : Bool :=
  (match filter.address with
    | some addresses => addresses.contains log.address
    | none => true) &&
  match filter.topics with
    | none => true
    | some allTopics => allTopics.zipIdx.all fun (expectedTopics, idx) =>
      match expectedTopics with
        | none => true
        | some expectedTopics =>
          match log.topics[idx]? with
            | some actualTopic => expectedTopics.contains actualTopic
            | none => false

/-- A filter restricts the address and single topics; a topic that the log lacks is refused. -/
theorem matchesLog_iff (filter : PubSubFilter) (log : Api.Log) : filter.matchesLog log = true ↔
    (∀ addresses, filter.address = some addresses → log.address ∈ addresses) ∧
      ∀ allTopics, filter.topics = some allTopics → ∀ (idx : ℕ) (expectedTopics : List H256),
        allTopics[idx]? = some (some expectedTopics) →
          ∃ actualTopic ∈ expectedTopics, log.topics[idx]? = some actualTopic := by
  unfold matchesLog
  rw [Bool.and_eq_true]
  refine and_congr ?_ ?_
  · cases filter.address <;> simp
  · cases filter.topics with
    | none => simp
    | some allTopics =>
      simp only [List.all_eq_true, List.mem_zipIdx_iff_getElem?, Prod.forall, Option.some.injEq,
        forall_eq']
      constructor
      · intro h idx expectedTopics hget
        have hone := h (some expectedTopics) idx hget
        cases htopic : log.topics[idx]? with
        | none => simp [htopic] at hone
        | some actualTopic =>
          simp only [htopic, List.contains_eq_mem, decide_eq_true_eq] at hone
          exact ⟨actualTopic, hone, rfl⟩
      · intro h expected idx hget
        cases expected with
        | none => rfl
        | some expectedTopics =>
          obtain ⟨actualTopic, hmem, htopic⟩ := h idx expectedTopics hget
          simp [htopic, hmem]

end PubSubFilter

/-- Why the task of a subscription has ended. -/
inductive Finish where
  | closed
  | lagged (messageCount : ℕ)
  | sendTimeout
  | sinkClosed
  deriving DecidableEq

/-- A task of `run_subscriber`: its receiver, the items that it is sending on, and what its sink has
got. Its channel had `since` messages when it subscribed, and `position` when it last took one. -/
structure Subscriber (R : Type) where
  subscriptionType : SubscriptionType
  filter : Option PubSubFilter
  receiver : R
  since : ℕ
  position : ℕ
  newItems : List PubSubResult
  notified : List PubSubResult
  finish : Option Finish

variable {C R : Type}

/-- The operations of `tokio::sync::broadcast` on the channels of the subscriptions. -/
abbrev BroadcastCrate (C R : Type) := Broadcast.Api (List PubSubResult) C R

namespace Subscriber

def passes (s : Subscriber R) : PubSubResult → Bool
  | .log log => s.filter.all fun filter => filter.matchesLog log
  | _ => true

/-- The loop of `run_subscriber` is left, and the receiver with it. -/
def leaveLoop (crate : BroadcastCrate C R) (s : Subscriber R) (channel : C) (finish : Finish) :
    Subscriber R × C :=
  ({ s with finish := some finish }, crate.dropReceiver channel s.receiver)

/-- The receiving branch of the loop of `run_subscriber`. -/
def receive (crate : BroadcastCrate C R) (s : Subscriber R) (channel : C) :
    Option (Subscriber R × C) :=
  if s.finish = none ∧ s.newItems = [] then
    let (newItemsResult, receiver, channel) := crate.recv channel s.receiver
    let s := { s with receiver := receiver }
    match newItemsResult with
    | .message newItems =>
      some ({ s with newItems := newItems, position := s.position + 1 }, channel)
    | .lagged messageCount => some (s.leaveLoop crate channel (.lagged messageCount))
    | .closed => some (s.leaveLoop crate channel .closed)
    | .empty => none
  else none

/-- One item of the loop of `handle_new_items`; `sent` is whether the sink takes it in time. -/
def handleNewItem (crate : BroadcastCrate C R) (sent : Bool) (s : Subscriber R) (channel : C) :
    Option (Subscriber R × C) :=
  if s.finish = none then
    match s.newItems with
    | [] => none
    | item :: newItems =>
      if ¬ s.passes item then some ({ s with newItems := newItems }, channel)
      else if sent then
        some ({ s with newItems := newItems, notified := s.notified ++ [item] }, channel)
      else some (s.leaveLoop crate channel .sendTimeout)
  else none

/-- The other branch of the loop of `run_subscriber`. -/
def sinkClosed (crate : BroadcastCrate C R) (s : Subscriber R) (channel : C) :
    Option (Subscriber R × C) :=
  if s.finish = none ∧ s.newItems = [] then some (s.leaveLoop crate channel .sinkClosed) else none

end Subscriber

/-- `EthSubscribe` with its tasks. A channel has a sender here, until this is dropped, and one in
each of its notifiers. All messages of a channel are in `history`; `syncing` counts the tasks that
send a single result. -/
structure EthSubscribe (C R : Type) where
  channels : SubscriptionType → C
  dropped : Bool
  notifiers : SubscriptionType → ℕ
  history : SubscriptionType → List (List PubSubResult)
  subscribers : List (Subscriber R)
  syncing : ℕ
  events : List SubscriptionType

inductive PubSubAction where
  | spawnNotifier (subType : SubscriptionType)
  | send (subType : SubscriptionType) (results : List PubSubResult)
  | stopNotifier (subType : SubscriptionType)
  | sub (subType : String) (params : Option PubSubFilter) (accepted : Bool)
  | receive (i : ℕ)
  | handleNewItem (i : ℕ) (sent : Bool)
  | sinkClosed (i : ℕ)
  | drop

namespace EthSubscribe

def broadcastChannelCapacity : ℕ := 1024

def eventTopicNumberLimit : ℕ := 4

def new (crate : BroadcastCrate C R) : EthSubscribe C R where
  channels := fun _ => crate.channel broadcastChannelCapacity
  dropped := false
  notifiers := fun _ => 0
  history := fun _ => []
  subscribers := []
  syncing := 0
  events := []

variable (crate : BroadcastCrate C R) (s : EthSubscribe C R)

/-- The tasks that still have a receiver of the channel. -/
def running (subType : SubscriptionType) : ℕ :=
  s.subscribers.countP fun subscriber =>
    subscriber.subscriptionType = subType && subscriber.finish.isNone

def setChannel (subType : SubscriptionType) (channel : C) : EthSubscribe C R :=
  { s with channels := Function.update s.channels subType channel }

/-- A notifier gets a clone of the sender. -/
def spawnNotifier (subType : SubscriptionType) : EthSubscribe C R :=
  { s.setChannel subType (crate.cloneSender (s.channels subType)) with
    notifiers := Function.update s.notifiers subType (s.notifiers subType + 1) }

/-- A notifier drops its sender. -/
def stopNotifier (subType : SubscriptionType) : EthSubscribe C R :=
  { s.setChannel subType (crate.dropSender (s.channels subType)) with
    notifiers := Function.update s.notifiers subType (s.notifiers subType - 1) }

/-- `send_pub_sub_results`; an error is ignored. The results are a message of the channel when there
is a task to receive it. -/
def sendPubSubResults (subType : SubscriptionType) (results : List PubSubResult) :
    EthSubscribe C R :=
  { s.setChannel subType ((crate.send (s.channels subType) results).getD (s.channels subType)) with
    history := if s.running subType = 0 then s.history else
      Function.update s.history subType (s.history subType ++ [results]) }

/-- A new task. -/
def runSubscriber (subType : SubscriptionType) (filter : Option PubSubFilter) :
    EthSubscribe C R :=
  let (receiver, channel) := crate.subscribe (s.channels subType)
  let since := (s.history subType).length
  { s.setChannel subType channel with
    subscribers := s.subscribers ++ [⟨subType, filter, receiver, since, since, [], [], none⟩]
    events := s.events ++ [subType] }

/-- `sub`; `accepted` is whether the sink could be accepted. -/
def sub (subType : String) (params : Option PubSubFilter) (accepted : Bool) : EthSubscribe C R :=
  if subType = "newHeads" then if accepted then s.runSubscriber crate .blocks none else s
  else if subType = "newPendingTransactions" then
    if accepted then s.runSubscriber crate .txs none else s
  else if subType = "logs" then
    let filter := params.getD {}
    let topicCount := (filter.topics.map List.length).getD 0
    if eventTopicNumberLimit < topicCount then s
    else if accepted then s.runSubscriber crate .logs (some filter) else s
  else if subType = "syncing" then
    if accepted then { s with syncing := s.syncing + 1 } else s
  else if subType = "l1_batch_proofs" then
    if accepted then s.runSubscriber crate .l1BatchProofs none else s
  else s

/-- A step of one task, on its channel. -/
def stepTask (i : ℕ) (f : Subscriber R → C → Option (Subscriber R × C)) :
    Option (EthSubscribe C R) := do
  let subscriber ← s.subscribers[i]?
  let (subscriber', channel) ← f subscriber (s.channels subscriber.subscriptionType)
  return { s.setChannel subscriber.subscriptionType channel with
    subscribers := s.subscribers.set i subscriber' }

def step : PubSubAction → Option (EthSubscribe C R)
  | .spawnNotifier subType => if s.dropped then none else some (s.spawnNotifier crate subType)
  | .send subType results =>
    if s.notifiers subType = 0 then none else some (s.sendPubSubResults crate subType results)
  | .stopNotifier subType =>
    if s.notifiers subType = 0 then none else some (s.stopNotifier crate subType)
  | .sub subType params accepted =>
    if s.dropped then none else some (s.sub crate subType params accepted)
  | .receive i => s.stepTask i (Subscriber.receive crate)
  | .handleNewItem i sent => s.stepTask i (Subscriber.handleNewItem crate sent)
  | .sinkClosed i => s.stepTask i (Subscriber.sinkClosed crate)
  | .drop =>
    if s.dropped then none
    else some { s with
      channels := fun subType => crate.dropSender (s.channels subType)
      dropped := true }

/-- The states of the subscriptions in any interleaving of the notifiers and the tasks. -/
def Reachable : EthSubscribe C R → Prop :=
  Transition.Reaches (fun s => step crate s) (fun _ _ => True) (fun s => s = new crate)

variable {crate s}

/-- The items for a subscriber that were broadcast since it subscribed. -/
def broadcastTo (s : EthSubscribe C R) (subscriber : Subscriber R) : List PubSubResult :=
  ((s.history subscriber.subscriptionType).drop subscriber.since).flatten.filter subscriber.passes

end EthSubscribe

namespace Subscriber

variable {crate : BroadcastCrate C R} {holds : C → Broadcast.View (List PubSubResult) → Prop}
  {position : R → ℕ} {s s' : Subscriber R} {channel channel' : C}

theorem receive_cases (h : s.receive crate channel = some (s', channel')) :
    s.finish = none ∧ s.newItems = [] ∧
      ((∃ newItems receiver,
          crate.recv channel s.receiver = (.message newItems, receiver, channel') ∧
          s' = { s with
            receiver := receiver, newItems := newItems, position := s.position + 1 }) ∨
        ∃ result receiver channel₁ finish, crate.recv channel s.receiver =
            (result, receiver, channel₁) ∧ channel' = crate.dropReceiver channel₁ receiver ∧
          s' = { s with receiver := receiver, finish := some finish } ∧
          ∀ messageCount, finish = .lagged messageCount → result = .lagged messageCount) := by
  unfold receive at h
  split_ifs at h with hidle
  refine ⟨hidle.1, hidle.2, ?_⟩
  rcases hrecv : crate.recv channel s.receiver with ⟨newItems | messageCount | _ | _,
    receiver, channel₁⟩
  · rw [hrecv] at h
    cases h
    exact .inl ⟨newItems, receiver, rfl, rfl⟩
  · rw [hrecv] at h
    cases h
    exact .inr ⟨_, receiver, channel₁, _, rfl, rfl, rfl, by rintro _ ⟨⟩; rfl⟩
  · rw [hrecv] at h
    cases h
    exact .inr ⟨_, receiver, channel₁, _, rfl, rfl, rfl, nofun⟩
  · rw [hrecv] at h
    cases h

theorem handleNewItem_cases {sent : Bool}
    (h : s.handleNewItem crate sent channel = some (s', channel')) :
    s.finish = none ∧ ∃ item newItems, s.newItems = item :: newItems ∧
      ((s.passes item = false ∧ s' = { s with newItems := newItems } ∧ channel' = channel) ∨
        (s.passes item = true ∧ channel' = channel ∧
          s' = { s with newItems := newItems, notified := s.notified ++ [item] }) ∨
        (s', channel') = s.leaveLoop crate channel .sendTimeout) := by
  by_cases hrunning : s.finish = none
  swap
  · rw [handleNewItem, if_neg hrunning] at h
    cases h
  rw [handleNewItem, if_pos hrunning] at h
  refine ⟨hrunning, ?_⟩
  cases hitems : s.newItems with
  | nil =>
    rw [hitems] at h
    cases h
  | cons item newItems =>
    rw [hitems] at h
    refine ⟨item, newItems, rfl, ?_⟩
    cases hpasses : s.passes item with
    | false =>
      simp only [hpasses, Bool.false_eq_true, not_false_eq_true, if_true] at h
      cases h
      exact .inl ⟨rfl, rfl, rfl⟩
    | true =>
      simp only [hpasses, not_true_eq_false, if_false] at h
      split_ifs at h
      · cases h
        exact .inr (.inl ⟨rfl, rfl, rfl⟩)
      · exact .inr (.inr (Option.some.inj h).symm)

/-- The items of the messages that a receiver has taken. -/
def received (s : Subscriber R) (history : List (List PubSubResult)) : List PubSubResult :=
  (((history.take s.position).drop s.since).flatten).filter s.passes

/-- The state of a task against the messages of its channel. -/
structure Inv (position : R → ℕ) (s : Subscriber R) (capacity : ℕ)
    (history : List (List PubSubResult)) : Prop where
  receiver : s.finish = none → position s.receiver = s.position
  since_le : s.since ≤ s.position
  position_le : s.position ≤ history.length
  running : s.finish = none →
    s.notified ++ s.newItems.filter s.passes = s.received history
  notified : s.notified <+: s.received history
  lagged : ∀ messageCount, s.finish = some (.lagged messageCount) →
    0 < messageCount ∧ s.position + messageCount + capacity ≤ history.length

/-- A step of a running task: it keeps its receiver, or it ends and drops it. -/
structure Next (holds : C → Broadcast.View (List PubSubResult) → Prop) (position : R → ℕ)
    (capacity : ℕ) (view : Broadcast.View (List PubSubResult)) (s s' : Subscriber R)
    (channel' : C) : Prop where
  running : s.finish = none
  subscriptionType : s'.subscriptionType = s.subscriptionType
  inv : s'.Inv position capacity view.sent
  channel : holds channel' (if s'.finish = none then view
    else { view with receivers := view.receivers - 1 })

variable {capacity : ℕ} {history : List (List PubSubResult)}

theorem Inv.append (h : s.Inv position capacity history) (results : List PubSubResult) :
    s.Inv position capacity (history ++ [results]) := by
  have hreceived : s.received (history ++ [results]) = s.received history := by
    unfold received
    rw [List.take_append_of_le_length h.position_le]
  refine ⟨h.receiver, h.since_le, ?_, ?_, ?_, fun messageCount hfinish => ?_⟩
  · have hle := h.position_le
    simp only [List.length_append]
    omega
  · rw [hreceived]
    exact h.running
  · rw [hreceived]
    exact h.notified
  · have hlagged := h.lagged messageCount hfinish
    simp only [List.length_append]
    omega

theorem Inv.finished (h : s.Inv position capacity history) (receiver : R) {finish : Finish}
    (hlagged : ∀ messageCount, finish = .lagged messageCount →
      0 < messageCount ∧ s.position + messageCount + capacity ≤ history.length) :
    Inv position { s with receiver := receiver, finish := some finish } capacity history :=
  ⟨nofun, h.since_le, h.position_le, nofun, h.notified, fun messageCount heq =>
    hlagged messageCount (Option.some.inj heq)⟩

variable (hcrate : crate.Lawful holds position) {view : Broadcast.View (List PubSubResult)}

include hcrate

theorem Inv.receive (h : s.Inv position capacity view.sent) (hchannel : holds channel view)
    (hpos : 0 < view.receivers) (hcapacity : capacity ≤ view.capacity)
    (hstep : s.receive crate channel = some (s', channel')) :
    Next holds position capacity view s s' channel' := by
  obtain ⟨hrunning, hnil, ⟨newItems, receiver, hrecv, rfl⟩ |
    ⟨result, receiver, channel₁, finish, hrecv, rfl, rfl, hfinish⟩⟩ := receive_cases hstep
  · have hreceiver := h.receiver hrunning
    obtain ⟨hreceives, hholds⟩ := hcrate.recv hchannel hpos (hreceiver.trans_le h.position_le)
    rw [hrecv, hreceiver] at hreceives
    rw [hrecv] at hholds
    obtain ⟨hget, hposition⟩ := hreceives.message_inv
    obtain ⟨hlt, hitems⟩ := List.getElem?_eq_some_iff.mp hget
    have hsince := h.since_le
    have hreceived : received { s with
        receiver := receiver, newItems := newItems, position := s.position + 1 } view.sent =
          s.received view.sent ++ newItems.filter s.passes := by
      unfold received
      rw [List.take_succ_eq_append_getElem hlt, hitems,
        List.drop_append_of_le_length (by rw [List.length_take]; dsimp only; omega),
        List.flatten_append, List.flatten_singleton, List.filter_append]
      rfl
    have hnotified := h.running hrunning
    rw [hnil, List.filter_nil, List.append_nil] at hnotified
    refine ⟨hrunning, rfl, ⟨fun _ => hposition, by dsimp only; omega, hlt, fun _ => ?_, ?_,
      fun n hn => ?_⟩, ?_⟩
    · rw [hreceived, ← hnotified]
      rfl
    · rw [hreceived, ← hnotified]
      exact List.prefix_append _ _
    · rw [hrunning] at hn
      cases hn
    · rw [if_pos hrunning]
      exact hholds
  · have hreceiver := h.receiver hrunning
    obtain ⟨hreceives, hholds⟩ := hcrate.recv hchannel hpos (hreceiver.trans_le h.position_le)
    rw [hrecv, hreceiver] at hreceives
    rw [hrecv] at hholds
    refine ⟨hrunning, rfl, h.finished receiver fun n hn => ?_, ?_⟩
    · rw [hfinish n hn] at hreceives
      obtain ⟨hskipped, hlength⟩ := hreceives.lagged_inv
      exact ⟨hskipped, by omega⟩
    · rw [if_neg nofun]
      exact hcrate.dropReceiver hholds hpos

theorem Inv.leaveLoop (h : s.Inv position capacity view.sent) (hchannel : holds channel view)
    (hpos : 0 < view.receivers) (hrunning : s.finish = none) (finish : Finish)
    (hfinish : ∀ messageCount, finish ≠ .lagged messageCount)
    (hstep : (s', channel') = s.leaveLoop crate channel finish) :
    Next holds position capacity view s s' channel' := by
  cases hstep
  refine ⟨hrunning, rfl, h.finished s.receiver fun n hn => absurd hn (hfinish n), ?_⟩
  rw [if_neg nofun]
  exact hcrate.dropReceiver hchannel hpos

theorem Inv.handleNewItem (h : s.Inv position capacity view.sent) (hchannel : holds channel view)
    (hpos : 0 < view.receivers) {sent : Bool}
    (hstep : s.handleNewItem crate sent channel = some (s', channel')) :
    Next holds position capacity view s s' channel' := by
  obtain ⟨hrunning, item, newItems, hitems, ⟨hpasses, rfl, rfl⟩ | ⟨hpasses, rfl, rfl⟩ | heq⟩ :=
    handleNewItem_cases hstep
  · have hnotified := h.running hrunning
    rw [hitems, List.filter_cons_of_neg (by simp [hpasses])] at hnotified
    refine ⟨hrunning, rfl, ⟨h.receiver, h.since_le, h.position_le, fun _ => hnotified, h.notified,
      h.lagged⟩, ?_⟩
    rw [if_pos hrunning]
    exact hchannel
  · have hnotified := h.running hrunning
    rw [hitems, List.filter_cons_of_pos hpasses, List.append_cons] at hnotified
    refine ⟨hrunning, rfl, ⟨h.receiver, h.since_le, h.position_le, fun _ => hnotified,
      ⟨newItems.filter s.passes, hnotified⟩, h.lagged⟩, ?_⟩
    rw [if_pos hrunning]
    exact hchannel
  · exact h.leaveLoop hcrate hchannel hpos hrunning .sendTimeout (fun _ => nofun) heq

theorem Inv.sinkClosed (h : s.Inv position capacity view.sent) (hchannel : holds channel view)
    (hpos : 0 < view.receivers) (hstep : s.sinkClosed crate channel = some (s', channel')) :
    Next holds position capacity view s s' channel' := by
  unfold Subscriber.sinkClosed at hstep
  split_ifs at hstep with hidle
  exact h.leaveLoop hcrate hchannel hpos hidle.1 .sinkClosed (fun _ => nofun)
    (Option.some.inj hstep).symm

end Subscriber

namespace EthSubscribe

variable {crate : BroadcastCrate C R} {holds : C → Broadcast.View (List PubSubResult) → Prop}
  {position : R → ℕ} {s s' : EthSubscribe C R}

/-- The senders of a channel: the one of the server, and those of the notifiers. -/
def senders (s : EthSubscribe C R) (subType : SubscriptionType) : ℕ :=
  (if s.dropped then 0 else 1) + s.notifiers subType

/-- What is known of a channel. -/
def view (s : EthSubscribe C R) (subType : SubscriptionType) (capacity : ℕ) :
    Broadcast.View (List PubSubResult) where
  capacity := capacity
  sent := s.history subType
  senders := s.senders subType
  receivers := s.running subType

structure Inv (holds : C → Broadcast.View (List PubSubResult) → Prop) (position : R → ℕ)
    (s : EthSubscribe C R) : Prop where
  channels : ∀ subType, ∃ capacity, broadcastChannelCapacity ≤ capacity ∧
    holds (s.channels subType) (s.view subType capacity)
  subscribers : ∀ subscriber ∈ s.subscribers,
    subscriber.Inv position broadcastChannelCapacity (s.history subscriber.subscriptionType)

/-- One channel is changed, the views of the others stay. -/
theorem Inv.setChannel (h : Inv holds position s) {subType : SubscriptionType} {channel : C}
    (hchannels : s'.channels = Function.update s.channels subType channel)
    (hothers : ∀ other, other ≠ subType → ∀ capacity, s'.view other capacity =
      s.view other capacity)
    (hchannel : ∀ capacity, holds (s.channels subType) (s.view subType capacity) →
      holds channel (s'.view subType capacity)) :
    ∀ other, ∃ capacity, broadcastChannelCapacity ≤ capacity ∧
      holds (s'.channels other) (s'.view other capacity) := by
  intro other
  rw [hchannels]
  by_cases hother : other = subType
  · obtain ⟨capacity, hle, hholds⟩ := h.channels subType
    subst hother
    rw [Function.update_self]
    exact ⟨capacity, hle, hchannel capacity hholds⟩
  · obtain ⟨capacity, hle, hholds⟩ := h.channels other
    rw [Function.update_of_ne hother]
    exact ⟨capacity, hle, hothers other hother capacity ▸ hholds⟩

theorem running_eq_zero {subType : SubscriptionType} (h : s.running subType = 0)
    {subscriber : Subscriber R} (hmem : subscriber ∈ s.subscribers)
    (htype : subscriber.subscriptionType = subType) : subscriber.finish ≠ none := by
  have hnone := List.countP_eq_zero.mp h subscriber hmem
  simpa [htype] using hnone

theorem running_pos {subscriber : Subscriber R} (hmem : subscriber ∈ s.subscribers)
    (hrunning : subscriber.finish = none) : 0 < s.running subscriber.subscriptionType := by
  refine Nat.pos_of_ne_zero fun hzero => ?_
  exact running_eq_zero hzero hmem rfl hrunning

theorem running_runSubscriber (crate : BroadcastCrate C R) (s : EthSubscribe C R)
    (subType other : SubscriptionType) (filter : Option PubSubFilter) :
    (s.runSubscriber crate subType filter).running other =
      s.running other + if subType = other then 1 else 0 := by
  unfold running EthSubscribe.runSubscriber
  dsimp only
  rw [List.countP_append, List.countP_singleton]
  simp

/-- A task is replaced by its next state. -/
theorem running_set {i : ℕ} {subscriber : Subscriber R}
    (hget : s.subscribers[i]? = some subscriber) (subscriber' : Subscriber R) (channel : C)
    (subType : SubscriptionType) :
    ({ s.setChannel subscriber.subscriptionType channel with
      subscribers := s.subscribers.set i subscriber' } : EthSubscribe C R).running subType =
      s.running subType - (if subscriber.subscriptionType = subType ∧ subscriber.finish = none
        then 1 else 0) +
        if subscriber'.subscriptionType = subType ∧ subscriber'.finish = none then 1 else 0 := by
  obtain ⟨hlt, rfl⟩ := List.getElem?_eq_some_iff.mp hget
  unfold running
  dsimp only
  rw [List.countP_set hlt]
  simp only [Bool.and_eq_true, decide_eq_true_eq, Option.isNone_iff_eq_none]

section

variable (hcrate : crate.Lawful holds position)

include hcrate

theorem inv_new : Inv holds position (new crate) := by
  refine ⟨fun subType => ?_, nofun⟩
  exact hcrate.channel (Nat.zero_lt_succ _)

theorem Inv.spawnNotifier (h : Inv holds position s) (hdropped : s.dropped = false)
    (subType : SubscriptionType) : Inv holds position (s.spawnNotifier crate subType) := by
  have hpos : 0 < s.senders subType := by
    unfold senders
    rw [hdropped]
    exact Nat.lt_of_lt_of_le Nat.zero_lt_one (Nat.le_add_right _ _)
  have hsenders (other : SubscriptionType) : (s.spawnNotifier crate subType).senders other =
      s.senders other + if other = subType then 1 else 0 := by
    unfold senders EthSubscribe.spawnNotifier EthSubscribe.setChannel
    by_cases hother : other = subType
    · rw [if_pos hother, hother]
      dsimp only
      rw [Function.update_self, Nat.add_assoc]
    · rw [if_neg hother]
      dsimp only
      rw [Function.update_of_ne hother]
      rfl
  refine ⟨h.setChannel rfl (fun other hother capacity => ?_) fun capacity hholds => ?_,
    h.subscribers⟩
  · unfold EthSubscribe.view
    rw [hsenders, if_neg hother]
    rfl
  · unfold EthSubscribe.view
    rw [hsenders, if_pos rfl]
    exact hcrate.cloneSender hholds hpos

theorem Inv.stopNotifier (h : Inv holds position s) {subType : SubscriptionType}
    (hpos : s.notifiers subType ≠ 0) : Inv holds position (s.stopNotifier crate subType) := by
  have hsenders (other : SubscriptionType) : (s.stopNotifier crate subType).senders other =
      s.senders other - if other = subType then 1 else 0 := by
    unfold senders EthSubscribe.stopNotifier EthSubscribe.setChannel
    by_cases hother : other = subType
    · rw [if_pos hother, hother]
      dsimp only
      rw [Function.update_self, Nat.add_sub_assoc (Nat.pos_of_ne_zero hpos)]
    · rw [if_neg hother]
      dsimp only
      rw [Function.update_of_ne hother, Nat.sub_zero]
  refine ⟨h.setChannel rfl (fun other hother capacity => ?_) fun capacity hholds => ?_,
    h.subscribers⟩
  · unfold EthSubscribe.view
    rw [hsenders, if_neg hother]
    rfl
  · unfold EthSubscribe.view
    rw [hsenders, if_pos rfl]
    exact hcrate.dropSender hholds (Nat.add_pos_right _ (Nat.pos_of_ne_zero hpos))

theorem Inv.sendPubSubResults (h : Inv holds position s) (subType : SubscriptionType)
    (results : List PubSubResult) :
    Inv holds position (s.sendPubSubResults crate subType results) := by
  by_cases hzero : s.running subType = 0
  · -- nobody listens, and the message is refused
    have hkept : s.sendPubSubResults crate subType results = s := by
      obtain ⟨capacity, -, hholds⟩ := h.channels subType
      unfold EthSubscribe.sendPubSubResults EthSubscribe.setChannel
      rw [hcrate.send_none hholds hzero, if_pos hzero, Option.getD_none,
        Function.update_eq_self]
    rw [hkept]
    exact h
  · have hhistory : (s.sendPubSubResults crate subType results).history =
        Function.update s.history subType (s.history subType ++ [results]) := if_neg hzero
    refine ⟨h.setChannel rfl (fun other hother capacity => ?_) fun capacity hholds => ?_,
      fun subscriber hmem => ?_⟩
    · unfold EthSubscribe.view
      rw [hhistory, Function.update_of_ne hother]
      rfl
    · obtain ⟨channel, hsend, hsent⟩ : ∃ channel, crate.send _ results = some channel ∧ _ :=
        hcrate.send hholds (Nat.pos_of_ne_zero hzero)
      unfold EthSubscribe.view
      rw [hhistory, Function.update_self, hsend]
      exact hsent
    · have hsub := h.subscribers subscriber hmem
      rw [hhistory]
      by_cases hother : subscriber.subscriptionType = subType
      · rw [hother] at hsub
        rw [hother, Function.update_self]
        exact hsub.append results
      · rw [Function.update_of_ne hother]
        exact hsub

theorem Inv.runSubscriber (h : Inv holds position s) (subType : SubscriptionType)
    (filter : Option PubSubFilter) :
    Inv holds position (s.runSubscriber crate subType filter) := by
  obtain ⟨capacity, -, hholds⟩ := h.channels subType
  obtain ⟨hposition, -⟩ := hcrate.subscribe hholds
  refine ⟨h.setChannel rfl (fun other hother capacity => ?_) fun capacity hholds => ?_,
    fun subscriber hmem => ?_⟩
  · unfold EthSubscribe.view
    rw [running_runSubscriber, if_neg (Ne.symm hother)]
    rfl
  · obtain ⟨-, hsubscribed⟩ := hcrate.subscribe hholds
    unfold EthSubscribe.view
    rw [running_runSubscriber, if_pos rfl]
    exact hsubscribed
  · rcases List.mem_append.mp hmem with hmem | hmem
    · exact h.subscribers subscriber hmem
    · cases List.mem_singleton.mp hmem
      refine ⟨fun _ => hposition, le_rfl, le_rfl, fun _ => ?_, List.nil_prefix, nofun⟩
      simp [Subscriber.received]

theorem Inv.sub (h : Inv holds position s) (subType : String) (params : Option PubSubFilter)
    (accepted : Bool) : Inv holds position (s.sub crate subType params accepted) := by
  unfold EthSubscribe.sub
  dsimp only
  split_ifs <;> first | exact h | exact h.runSubscriber hcrate _ _ |
    exact ⟨h.channels, h.subscribers⟩

omit hcrate in
theorem Inv.stepTask (h : Inv holds position s) {i : ℕ}
    {f : Subscriber R → C → Option (Subscriber R × C)}
    (hf : ∀ subscriber subscriber' channel' capacity, subscriber ∈ s.subscribers →
      broadcastChannelCapacity ≤ capacity →
      holds (s.channels subscriber.subscriptionType)
        (s.view subscriber.subscriptionType capacity) →
      f subscriber (s.channels subscriber.subscriptionType) = some (subscriber', channel') →
      Subscriber.Next holds position broadcastChannelCapacity
        (s.view subscriber.subscriptionType capacity) subscriber subscriber' channel')
    (hstep : s.stepTask i f = some s') : Inv holds position s' := by
  obtain ⟨subscriber, hget, hstep⟩ := Option.bind_eq_some_iff.mp hstep
  obtain ⟨⟨subscriber', channel'⟩, hrun, hstep⟩ := Option.bind_eq_some_iff.mp hstep
  cases hstep
  have hmem := List.mem_of_getElem? hget
  have hnext (capacity : ℕ) (hle : broadcastChannelCapacity ≤ capacity) (hholds : holds
      (s.channels subscriber.subscriptionType) (s.view subscriber.subscriptionType capacity)) :=
    hf subscriber subscriber' channel' capacity hmem hle hholds hrun
  obtain ⟨capacity, hle, hholds⟩ := h.channels subscriber.subscriptionType
  obtain ⟨hrunning, htype, hinv, -⟩ := hnext capacity hle hholds
  have hpos := running_pos hmem hrunning
  have hset := running_set hget subscriber' channel'
  rw [htype] at hset
  refine ⟨fun other => ?_, fun other hother => ?_⟩
  · by_cases hother : other = subscriber.subscriptionType
    · subst hother
      refine ⟨capacity, hle, ?_⟩
      have hchannel := (hnext capacity hle hholds).channel
      unfold EthSubscribe.view at hchannel ⊢
      rw [hset, if_pos ⟨rfl, hrunning⟩]
      show holds (Function.update s.channels subscriber.subscriptionType channel'
        subscriber.subscriptionType) _
      rw [Function.update_self]
      by_cases hfinish : subscriber'.finish = none
      · rw [if_pos hfinish] at hchannel
        rw [if_pos ⟨rfl, hfinish⟩, Nat.sub_add_cancel hpos]
        exact hchannel
      · rw [if_neg hfinish] at hchannel
        rw [if_neg fun hend => hfinish hend.2]
        exact hchannel
    · obtain ⟨capacity', hle', hholds'⟩ := h.channels other
      refine ⟨capacity', hle', ?_⟩
      unfold EthSubscribe.view at hholds' ⊢
      rw [hset, if_neg fun hend => hother hend.1.symm, if_neg fun hend => hother hend.1.symm]
      show holds (Function.update s.channels subscriber.subscriptionType channel' other) _
      rw [Function.update_of_ne hother]
      exact hholds'
  · rcases List.mem_or_eq_of_mem_set hother with hmem | rfl
    · exact h.subscribers other hmem
    · rw [htype]
      exact hinv

theorem Inv.drop (h : Inv holds position s) (hdropped : s.dropped = false) :
    Inv holds position { s with
      channels := fun subType => crate.dropSender (s.channels subType)
      dropped := true } := by
  refine ⟨fun subType => ?_, h.subscribers⟩
  obtain ⟨capacity, hle, hholds⟩ := h.channels subType
  refine ⟨capacity, hle, ?_⟩
  have hsenders : s.senders subType = 1 + s.notifiers subType := by
    unfold senders
    rw [hdropped]
    rfl
  have hpos : 0 < s.senders subType := by omega
  have hone : holds _ { s.view subType capacity with senders := s.senders subType - 1 } :=
    hcrate.dropSender hholds hpos
  rw [hsenders, Nat.add_comm, Nat.add_sub_cancel] at hone
  unfold EthSubscribe.view senders at hone ⊢
  rw [if_pos rfl, Nat.zero_add]
  exact hone

theorem Inv.step (h : Inv holds position s) {a : PubSubAction}
    (hstep : s.step crate a = some s') : Inv holds position s' := by
  have hpositive {subscriber : Subscriber R} (hmem : subscriber ∈ s.subscribers)
      (hrunning : subscriber.finish = none) (capacity : ℕ) :
      0 < (s.view subscriber.subscriptionType capacity).receivers := running_pos hmem hrunning
  cases a with
  | spawnNotifier subType =>
    unfold EthSubscribe.step at hstep
    split_ifs at hstep with hdropped
    cases hstep
    exact h.spawnNotifier hcrate (Bool.eq_false_iff.mpr hdropped) subType
  | send subType results =>
    simp only [EthSubscribe.step] at hstep
    split_ifs at hstep
    cases hstep
    exact h.sendPubSubResults hcrate subType results
  | stopNotifier subType =>
    simp only [EthSubscribe.step] at hstep
    split_ifs at hstep with hzero
    cases hstep
    exact h.stopNotifier hcrate hzero
  | sub subType params accepted =>
    unfold EthSubscribe.step at hstep
    split_ifs at hstep
    cases hstep
    exact h.sub hcrate subType params accepted
  | receive i =>
    refine h.stepTask (fun subscriber subscriber' channel' capacity hmem hle hholds hrun => ?_)
      hstep
    exact (h.subscribers subscriber hmem).receive hcrate hholds
      (hpositive hmem (Subscriber.receive_cases hrun).1 capacity) hle hrun
  | handleNewItem i sent =>
    refine h.stepTask (fun subscriber subscriber' channel' capacity hmem _ hholds hrun => ?_) hstep
    exact (h.subscribers subscriber hmem).handleNewItem hcrate hholds
      (hpositive hmem (Subscriber.handleNewItem_cases hrun).1 capacity) hrun
  | sinkClosed i =>
    refine h.stepTask (fun subscriber subscriber' channel' capacity hmem _ hholds hrun => ?_) hstep
    have hidle : subscriber.finish = none := by
      by_contra hfinish
      rw [Subscriber.sinkClosed, if_neg fun hidle => hfinish hidle.1] at hrun
      cases hrun
    exact (h.subscribers subscriber hmem).sinkClosed hcrate hholds
      (hpositive hmem hidle capacity) hrun
  | drop =>
    unfold EthSubscribe.step at hstep
    split_ifs at hstep with hdropped
    cases hstep
    exact h.drop hcrate (Bool.eq_false_iff.mpr hdropped)

theorem Reachable.inv (h : Reachable crate s) : Inv holds position s :=
  Transition.Reaches.invariant (Inv holds position) (by rintro s rfl; exact inv_new hcrate)
    (fun _ _ _ hinv _ hstep => hinv.step hcrate hstep) h

end

/-! A task on its own -/

/-- The steps of a task whose sink takes everything. -/
def Own (i : ℕ) : PubSubAction → Prop
  | .receive j => j = i
  | .handleNewItem j sent => j = i ∧ sent = true
  | _ => False

/-- The state after some steps of a task alone, which goes on. -/
structure Advances (crate : BroadcastCrate C R) (i : ℕ) (s : EthSubscribe C R)
    (subscriber : Subscriber R) (s' : EthSubscribe C R) (subscriber' : Subscriber R) : Prop where
  run : ∃ actions, (∀ a ∈ actions, Own i a) ∧
    Transition.run (fun s => step crate s) s actions = some s'
  history : s'.history = s.history
  getElem? : s'.subscribers[i]? = some subscriber'
  subscriptionType : subscriber'.subscriptionType = subscriber.subscriptionType
  subscription : subscriber'.since = subscriber.since ∧ subscriber'.filter = subscriber.filter
  finish : subscriber'.finish = none

variable {i : ℕ} {subscriber subscriber' subscriber'' : Subscriber R} {s'' : EthSubscribe C R}

theorem Advances.refl (hget : s.subscribers[i]? = some subscriber)
    (hrunning : subscriber.finish = none) : Advances crate i s subscriber s subscriber :=
  ⟨⟨[], nofun, rfl⟩, rfl, hget, rfl, ⟨rfl, rfl⟩, hrunning⟩

theorem Advances.trans (h : Advances crate i s subscriber s' subscriber')
    (h' : Advances crate i s' subscriber' s'' subscriber'') :
    Advances crate i s subscriber s'' subscriber'' := by
  obtain ⟨actions, hown, hrun⟩ := h.run
  obtain ⟨actions', hown', hrun'⟩ := h'.run
  refine ⟨⟨actions ++ actions', ?_, ?_⟩, h'.history.trans h.history, h'.getElem?,
    h'.subscriptionType.trans h.subscriptionType,
    ⟨h'.subscription.1.trans h.subscription.1, h'.subscription.2.trans h.subscription.2⟩,
    h'.finish⟩
  · intro a ha
    rcases List.mem_append.mp ha with ha | ha
    · exact hown a ha
    · exact hown' a ha
  · rw [Transition.run_append, hrun]
    exact hrun'

theorem Advances.one {a : PubSubAction} (hown : Own i a)
    (hget : s.subscribers[i]? = some subscriber)
    {f : Subscriber R → C → Option (Subscriber R × C)} {channel : C}
    (hstep : s.step crate a = s.stepTask i f)
    (hrun : f subscriber (s.channels subscriber.subscriptionType) = some (subscriber', channel))
    (htype : subscriber'.subscriptionType = subscriber.subscriptionType)
    (hsame : subscriber'.since = subscriber.since ∧ subscriber'.filter = subscriber.filter)
    (hrunning : subscriber'.finish = none) :
    Advances crate i s subscriber { s.setChannel subscriber.subscriptionType channel with
      subscribers := s.subscribers.set i subscriber' } subscriber' := by
  refine ⟨⟨[a], ?_, ?_⟩, rfl, ?_, htype, hsame, hrunning⟩
  · intro b hb
    rwa [List.mem_singleton.mp hb]
  · rw [Transition.run, hstep, stepTask, hget]
    change ((f subscriber _).bind _).bind _ = _
    rw [hrun]
    rfl
  · obtain ⟨hlt, -⟩ := List.getElem?_eq_some_iff.mp hget
    exact List.getElem?_set_self hlt

/-- The items of a message are sent on one by one. -/
theorem advances_items (crate : BroadcastCrate C R) (newItems : List PubSubResult)
    {s : EthSubscribe C R} {subscriber : Subscriber R} (hget : s.subscribers[i]? = some subscriber)
    (hrunning : subscriber.finish = none) (hitems : subscriber.newItems = newItems) :
    ∃ s' subscriber', Advances crate i s subscriber s' subscriber' ∧ subscriber'.newItems = [] ∧
      subscriber'.position = subscriber.position := by
  induction newItems generalizing s subscriber with
  | nil => exact ⟨s, subscriber, .refl hget hrunning, hitems, rfl⟩
  | cons item newItems ih =>
    obtain ⟨next, hnext, hrest⟩ : ∃ next,
        subscriber.handleNewItem crate true (s.channels subscriber.subscriptionType) =
          some (next, s.channels subscriber.subscriptionType) ∧
        next.subscriptionType = subscriber.subscriptionType ∧
        (next.since = subscriber.since ∧ next.filter = subscriber.filter) ∧ next.finish = none ∧
        next.newItems = newItems ∧ next.position = subscriber.position := by
      rw [Subscriber.handleNewItem, if_pos hrunning, hitems]
      dsimp only
      cases subscriber.passes item with
      | false => exact ⟨_, rfl, rfl, ⟨rfl, rfl⟩, hrunning, rfl, rfl⟩
      | true => exact ⟨_, rfl, rfl, ⟨rfl, rfl⟩, hrunning, rfl, rfl⟩
    obtain ⟨htype, hsame, hfinish, hleft, hposition⟩ := hrest
    have hone := Advances.one (a := .handleNewItem i true) ⟨rfl, rfl⟩ hget rfl hnext htype hsame
      hfinish
    obtain ⟨s', last, hlast, hnil, hkept⟩ := ih hone.getElem? hfinish hleft
    exact ⟨s', last, hone.trans hlast, hnil, hkept.trans hposition⟩

theorem Advances.broadcastTo (h : Advances crate i s subscriber s' subscriber') :
    s'.broadcastTo subscriber' = s.broadcastTo subscriber := by
  have hpasses : subscriber'.passes = subscriber.passes := by
    funext item
    cases item <;> simp [Subscriber.passes, h.subscription.2]
  rw [EthSubscribe.broadcastTo, EthSubscribe.broadcastTo, h.history, h.subscriptionType,
    h.subscription.1, hpasses]

theorem Inv.notified_eq (h : Inv holds position s) (hmem : subscriber ∈ s.subscribers)
    (hrunning : subscriber.finish = none) (hnil : subscriber.newItems = [])
    (hend : subscriber.position = (s.history subscriber.subscriptionType).length) :
    subscriber.notified = s.broadcastTo subscriber := by
  have hnotified := (h.subscribers subscriber hmem).running hrunning
  rw [hnil, List.filter_nil, List.append_nil] at hnotified
  rw [hnotified, Subscriber.received, hend, List.take_length]
  rfl

section

variable (hcrate : crate.Lawful holds position)

include hcrate

theorem Inv.advances (h : Inv holds position s)
    (hsteps : Advances crate i s subscriber s' subscriber') : Inv holds position s' := by
  obtain ⟨actions, -, hrun⟩ := hsteps.run
  exact Transition.run_preserves (Inv holds position) (fun _ _ _ hinv hstep =>
    hinv.step hcrate hstep) actions h hrun

/-- What the receiver of a task gets. -/
theorem Inv.receives (h : Inv holds position s) (hmem : subscriber ∈ s.subscribers)
    (hrunning : subscriber.finish = none) : ∃ capacity, broadcastChannelCapacity ≤ capacity ∧
      Broadcast.Receives (s.view subscriber.subscriptionType capacity) subscriber.position
        (crate.recv (s.channels subscriber.subscriptionType) subscriber.receiver).1
        (position (crate.recv (s.channels subscriber.subscriptionType)
          subscriber.receiver).2.1) := by
  obtain ⟨capacity, hle, hholds⟩ := h.channels subscriber.subscriptionType
  have hsub := h.subscribers subscriber hmem
  have hreceiver := hsub.receiver hrunning
  obtain ⟨hreceives, -⟩ := hcrate.recv hholds (running_pos hmem hrunning)
    (hreceiver.trans_le hsub.position_le)
  rw [hreceiver] at hreceives
  exact ⟨capacity, hle, hreceives⟩

/-- A task that is not more than the capacity behind receives all messages that are there. -/
theorem Inv.advances_end (h : Inv holds position s) (hget : s.subscribers[i]? = some subscriber)
    (hrunning : subscriber.finish = none) (d : ℕ) (hcapacity : d ≤ broadcastChannelCapacity)
    (hd : (s.history subscriber.subscriptionType).length = subscriber.position + d) :
    ∃ s' subscriber', Advances crate i s subscriber s' subscriber' ∧ subscriber'.newItems = [] ∧
      subscriber'.position = (s.history subscriber.subscriptionType).length := by
  induction d generalizing s subscriber with
  | zero =>
    obtain ⟨s₁, subscriber₁, hitems, hnil, hposition⟩ := advances_items crate _ hget hrunning rfl
    exact ⟨s₁, subscriber₁, hitems, hnil, by omega⟩
  | succ d ih =>
    obtain ⟨s₁, subscriber₁, hitems, hnil, hposition⟩ := advances_items crate _ hget hrunning rfl
    have hlength : (s₁.history subscriber₁.subscriptionType).length =
        subscriber₁.position + (d + 1) := by
      rw [hitems.history, hitems.subscriptionType, hd, hposition]
    obtain ⟨capacity, hle, hreceives⟩ := (h.advances hcrate hitems).receives hcrate
      (List.mem_of_getElem? hitems.getElem?) hitems.finish
    have hlt : subscriber₁.position <
        (s₁.view subscriber₁.subscriptionType capacity).sent.length := by
      show _ < (s₁.history subscriber₁.subscriptionType).length
      omega
    obtain ⟨hmessage, -⟩ := hreceives.exists_message hlt (by
      show (s₁.history subscriber₁.subscriptionType).length ≤ subscriber₁.position + capacity
      omega)
    obtain ⟨next, channel, hreceive, htype, hsame, hfinish, hadvanced⟩ : ∃ next channel,
        subscriber₁.receive crate (s₁.channels subscriber₁.subscriptionType) =
          some (next, channel) ∧ next.subscriptionType = subscriber₁.subscriptionType ∧
        (next.since = subscriber₁.since ∧ next.filter = subscriber₁.filter) ∧
        next.finish = none ∧ next.position = subscriber₁.position + 1 := by
      rw [Subscriber.receive, if_pos ⟨hitems.finish, hnil⟩]
      dsimp only
      rw [hmessage]
      exact ⟨_, _, rfl, rfl, ⟨rfl, rfl⟩, hitems.finish, rfl⟩
    have hone := Advances.one (a := .receive i) rfl hitems.getElem? rfl hreceive htype hsame
      hfinish
    have htwo := hitems.trans hone
    have hhistory := htwo.history
    obtain ⟨s', last, hlast, hnil', hend⟩ := ih (h.advances hcrate htwo) htwo.getElem? htwo.finish
      (by omega) (by
        rw [hhistory, htwo.subscriptionType]
        omega)
    refine ⟨s', last, htwo.trans hlast, hnil', ?_⟩
    rwa [hhistory, htwo.subscriptionType] at hend

end

/-- What subscriber `i` gets: the items that were broadcast for it since it subscribed, in their
order, without a gap and none twice; all of them when it waits for more. Its task ends by itself
only when it is more than the whole buffer behind, and until then can still send on everything. -/
structure Delivers (crate : BroadcastCrate C R) (s : EthSubscribe C R) (i : ℕ)
    (subscriber : Subscriber R) : Prop where
  inOrder : subscriber.notified <+: s.broadcastTo subscriber
  complete : subscriber.finish = none → subscriber.newItems = [] →
    (crate.recv (s.channels subscriber.subscriptionType) subscriber.receiver).1 = .empty →
      subscriber.notified = s.broadcastTo subscriber
  lagged : ∀ messageCount, subscriber.finish = some (.lagged messageCount) → 0 < messageCount ∧
    subscriber.position + messageCount + broadcastChannelCapacity ≤
      (s.history subscriber.subscriptionType).length
  drains : subscriber.finish = none → (s.history subscriber.subscriptionType).length ≤
    subscriber.position + broadcastChannelCapacity → ∃ s' subscriber',
      Advances crate i s subscriber s' subscriber' ∧
        subscriber'.notified = s.broadcastTo subscriber

/-- Over any broadcast channels that do what is relied on. -/
theorem Reachable.delivers (crate : BroadcastCrate C R) (hcrate : crate.Lawful holds position)
    (s : EthSubscribe C R) (h : Reachable crate s) (i : ℕ) (subscriber : Subscriber R)
    (hget : s.subscribers[i]? = some subscriber) : Delivers crate s i subscriber := by
  have hinv := h.inv hcrate
  have hmem := List.mem_of_getElem? hget
  have hsub := hinv.subscribers subscriber hmem
  refine ⟨?_, fun hrunning hnil hempty => ?_, hsub.lagged, fun hrunning hnear => ?_⟩
  · refine hsub.notified.trans ?_
    have hle : subscriber.since ≤
        ((s.history subscriber.subscriptionType).take subscriber.position).length := by
      rw [List.length_take]
      exact le_min hsub.since_le (hsub.since_le.trans hsub.position_le)
    rw [broadcastTo, Subscriber.received]
    conv_rhs => rw [← List.take_append_drop subscriber.position
      (s.history subscriber.subscriptionType), List.drop_append_of_le_length hle,
      List.flatten_append, List.filter_append]
    exact List.prefix_append _ _
  · obtain ⟨capacity, -, hreceives⟩ := hinv.receives hcrate hmem hrunning
    rw [hempty] at hreceives
    exact hinv.notified_eq hmem hrunning hnil hreceives.position_eq
  · obtain ⟨d, hd⟩ := Nat.exists_eq_add_of_le hsub.position_le
    obtain ⟨s', last, hlast, hnil, hend⟩ := hinv.advances_end hcrate hget hrunning d (by omega) hd
    refine ⟨s', last, hlast, ?_⟩
    rw [← hlast.broadcastTo]
    refine (hinv.advances hcrate hlast).notified_eq (List.mem_of_getElem? hlast.getElem?)
      hlast.finish hnil ?_
    rw [hlast.history, hlast.subscriptionType]
    exact hend

def addressLog (address : U256) : PubSubResult :=
  .log (EventRow.intoLog ⟨7, u256ToH256 1, 0, u256ToH256 address, 0, 0, none, none, none, none, [],
    u256ToH256 11⟩)

/-- Channels that are ring buffers. -/
abbrev ringCrate : BroadcastCrate (Broadcast.Ring (List PubSubResult)) ℕ := Broadcast.Ring.api

/-- Logs that come before there is a subscriber, then a subscriber to the logs of one address, and
three more logs. The notifier stops. -/
def sampleActions : List PubSubAction :=
  [.spawnNotifier .logs, .send .logs [addressLog 2],
    .sub "logs" (some { address := some [u256ToH256 2] }) true,
    .send .logs [addressLog 1, addressLog 2], .receive 0, .handleNewItem 0 true,
    .handleNewItem 0 true, .send .logs [addressLog 2], .stopNotifier .logs]

/-- The subscriber has got the last log of the first message. -/
theorem Reachable.delivers_sample : ∃ s subscriber, Reachable ringCrate s ∧
    s.subscribers[0]? = some subscriber ∧ subscriber.notified = [addressLog 2] ∧
    Delivers ringCrate s 0 subscriber := by
  have hrun : ((Transition.run (fun s => step ringCrate s) (new ringCrate) sampleActions).bind
      fun s => s.subscribers[0]?.map Subscriber.notified) = some [addressLog 2] := by
    decide +kernel
  obtain ⟨s, hs, hsub⟩ := Option.bind_eq_some_iff.mp hrun
  obtain ⟨subscriber, hget, hnotified⟩ := Option.map_eq_some_iff.mp hsub
  have hreach : Reachable ringCrate s :=
    Transition.reaches_run sampleActions (.start rfl) (fun _ _ => trivial) hs
  exact ⟨s, subscriber, hreach, hget, hnotified,
    Reachable.delivers ringCrate Broadcast.Ring.api_lawful s hreach 0 subscriber hget⟩

end EthSubscribe

end OlaOs
