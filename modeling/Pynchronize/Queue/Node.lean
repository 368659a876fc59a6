import Pynchronize.Queue.Membership
import Pynchronize.Queue.Store

/-!
# One QueueNode

What the operations and the handlers of a QueueNode do to its own state. The
callbacks of `subscribe` are not part of the model: `_consumer_loop` reads the
store, and changes it through `ack` only.
-/

namespace Pynchronize

open Lib

/-- The configuration all nodes share. -/
structure QueueConfig where
  nodes : List String
  hash : String → ℕ
  replicationFactor : ℕ := 2
  heartbeatInterval : ℚ := 1 / 20

structure QueueNode (P : Type*) where
  membership : Membership
  store : MessageStore P := {}
  inFlight : Dict String ℚ := Dict.empty

namespace QueueNode

variable {P : Type*}

def boot (cfg : QueueConfig) (clock : String → ℚ) (nodeId : String) : QueueNode P where
  membership := Membership.start cfg.hash cfg.heartbeatInterval nodeId cfg.nodes clock

def consistentHash (n : QueueNode P) : ConsistentHash := n.membership.consistentHash

/-- The nodes that `publish` and `ack` turn to. -/
def targetNodes (cfg : QueueConfig) (n : QueueNode P) (messageId : String) :
    Option (List String) :=
  n.consistentHash.getNodesForKey cfg.hash messageId
    (min cfg.replicationFactor n.consistentHash.nodes.card)

def handlePublish (cfg : QueueConfig) (n : QueueNode P) (message : QueueMessage P) :
    QueueNode P :=
  match n.store.get message.id with
  | some _ => n
  | none => { n with store := n.store.add cfg.hash message }

/-- `_handle_ack`, and what `ack` does to its own node. -/
def handleAck (cfg : QueueConfig) (n : QueueNode P) (messageId : String) : QueueNode P :=
  { n with
    store := (n.store.ack cfg.hash messageId).1
    inFlight := n.inFlight.erase messageId }

/-- A message that is handed out is counted in the store, but its file is not written. -/
def markDelivered (now : ℚ) (n : QueueNode P) (messageId : String) : QueueNode P :=
  match n.store.get messageId with
  | none => n
  | some msg =>
    let msg := { msg with attempts := msg.attempts + 1, lastAttempt := now }
    { n with
      store := { n.store with messages := n.store.messages.set messageId msg }
      inFlight := n.inFlight.set messageId now }

/-- `_handle_consume`, and `consume` on the responsible node: the messages come as they are after
    the loop. One reading `now` stands for the two that the loop takes of the clock for each
    message. -/
def handleConsume (now : ℚ) (n : QueueNode P) (queueName : String) (limit : ℤ) :
    QueueNode P × List (QueueMessage P) :=
  let ids := (n.store.getPending queueName limit).map QueueMessage.id
  let n' := ids.foldl (markDelivered now) n
  (n', ids.filterMap n'.store.get)

/-- One round of the loop in `_redelivery_loop`. -/
def redeliver (cfg : QueueConfig) (now : ℚ) (n : QueueNode P) (messageId : String) :
    QueueNode P :=
  match n.inFlight.get? messageId with
  | some startTime =>
    if now - startTime > 30 then
      { n with
        store := n.store.nack cfg.hash now messageId
        inFlight := n.inFlight.erase messageId }
    else n
  | none => n

end QueueNode

/-! ## What handing out leaves alone -/

/-- A message without its counters. -/
def QueueMessage.content {P : Type*} (msg : QueueMessage P) : QueueMessage P :=
  { msg with attempts := 0, lastAttempt := 0 }

theorem QueueMessage.content_eq_iff {P : Type*} {msg msg' : QueueMessage P} :
    msg.content = msg'.content ↔ msg.id = msg'.id ∧ msg.queueName = msg'.queueName ∧
      msg.payload = msg'.payload ∧ msg.createdAt = msg'.createdAt ∧ msg.acked = msg'.acked := by
  simp [content]

namespace MessageStore

variable {P : Type*}

/-- Messages are stored under their ids. -/
def Keyed (s : MessageStore P) : Prop := ∀ id msg, s.get id = some msg → msg.id = id

/-- The same messages in the same queues, up to their counters. -/
structure Retains (s s' : MessageStore P) : Prop where
  queue : ∀ queueName, s'.queue queueName = s.queue queueName
  content : ∀ id, (s'.get id).map QueueMessage.content = (s.get id).map QueueMessage.content

theorem Retains.refl (s : MessageStore P) : Retains s s := ⟨fun _ => rfl, fun _ => rfl⟩

theorem Retains.trans {s t u : MessageStore P} (h : Retains s t) (h' : Retains t u) :
    Retains s u :=
  ⟨fun q => (h'.queue q).trans (h.queue q), fun id => (h'.content id).trans (h.content id)⟩

theorem Retains.get {s s' : MessageStore P} (h : Retains s s') {id : String}
    {msg : QueueMessage P} (hget : s.get id = some msg) :
    ∃ msg', s'.get id = some msg' ∧ msg'.content = msg.content := by
  have := h.content id
  rw [hget] at this
  exact Option.map_eq_some_iff.mp this

theorem Retains.get' {s s' : MessageStore P} (h : Retains s s') {id : String}
    {msg' : QueueMessage P} (hget : s'.get id = some msg') :
    ∃ msg, s.get id = some msg ∧ msg.content = msg'.content := by
  have := h.content id
  rw [hget] at this
  exact Option.map_eq_some_iff.mp this.symm

theorem retains_nack (hash : String → ℕ) (now : ℚ) (s : MessageStore P) (messageId : String) :
    Retains s (s.nack hash now messageId) where
  queue _ := queue_edit ..
  content id := by
    unfold nack
    rw [get_edit]
    split
    · rw [Option.map_map]
      rfl
    · rfl

end MessageStore

namespace QueueNode

variable {P : Type*}

theorem retains_markDelivered (now : ℚ) (n : QueueNode P) (messageId : String) :
    MessageStore.Retains n.store (n.markDelivered now messageId).store := by
  unfold markDelivered
  cases h : n.store.get messageId with
  | none => exact .refl _
  | some msg =>
    refine ⟨fun _ => rfl, fun id => ?_⟩
    show ((n.store.messages.set messageId _).get? id).map _ = _
    rw [Dict.get?_set]
    split
    · rename_i heq
      rw [← heq, h]
      rfl
    · rfl

theorem retains_foldl_markDelivered (now : ℚ) (ids : List String) (n : QueueNode P) :
    MessageStore.Retains n.store (ids.foldl (markDelivered now) n).store := by
  induction ids generalizing n with
  | nil => exact .refl _
  | cons id ids ih => exact (retains_markDelivered now n id).trans (ih _)

theorem retains_handleConsume (now : ℚ) (n : QueueNode P) (queueName : String) (limit : ℤ) :
    MessageStore.Retains n.store (n.handleConsume now queueName limit).1.store :=
  retains_foldl_markDelivered now _ n

theorem retains_redeliver (cfg : QueueConfig) (now : ℚ) (n : QueueNode P) (messageId : String) :
    MessageStore.Retains n.store (n.redeliver cfg now messageId).store := by
  unfold redeliver
  split
  · split
    · exact MessageStore.retains_nack ..
    · exact .refl _
  · exact .refl _

/-! ## What is handed out -/

theorem mem_handleConsume {now : ℚ} {n : QueueNode P} {queueName : String} {limit : ℤ}
    {msg : QueueMessage P} (h : msg ∈ (n.handleConsume now queueName limit).2) :
    ∃ id old, n.store.get id = some old ∧ old.content = msg.content := by
  obtain ⟨id, -, hget⟩ := List.mem_filterMap.mp h
  obtain ⟨old, hold, hcontent⟩ := (retains_handleConsume now n queueName limit).get' hget
  exact ⟨id, old, hold, hcontent⟩

/-- A pending message is handed out if the limit covers the queue. -/
theorem handleConsume_of_pending (now : ℚ) {n : QueueNode P} {id queueName : String} {limit : ℤ}
    {msg : QueueMessage P} (hget : n.store.get id = some msg) (hid : msg.id = id)
    (hacked : msg.acked = false) (hlisted : id ∈ n.store.queue queueName)
    (hlimit : n.store.getQueueSize queueName ≤ limit) :
    ∃ msg' ∈ (n.handleConsume now queueName limit).2, msg'.content = msg.content := by
  have hpending : msg ∈ n.store.pending queueName :=
    List.mem_filterMap.mpr ⟨id, hlisted, by
      show (n.store.get id).filter _ = _
      simp [hget, hacked]⟩
  have hlength := n.store.length_pending queueName
  have hpos := List.length_pos_of_mem hpending
  have hall : n.store.getPending queueName limit = n.store.pending queueName := by
    rw [MessageStore.getPending_of_pos _ _ (by omega), List.take_of_length_le (by omega)]
  obtain ⟨msg', hget', hcontent⟩ :=
    (retains_handleConsume now n queueName limit).get hget
  refine ⟨msg', List.mem_filterMap.mpr ⟨id, ?_, hget'⟩, hcontent⟩
  exact List.mem_map.mpr ⟨msg, hall.symm ▸ hpending, hid⟩

end QueueNode

end Pynchronize
