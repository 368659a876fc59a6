import Mathlib.Algebra.Order.Ring.Unbundled.Rat
import Mathlib.Data.List.Basic
import Pynchronize.Lib.Dict

/-!
# The message store

`MessageStore` of a QueueNode. A message is known by its id; a queue is the list
of the ids that were added to it. Writing a file always succeeds here.
-/

namespace Pynchronize

open Lib

structure QueueMessage (P : Type*) where
  id : String
  queueName : String
  payload : P
  createdAt : ℚ
  attempts : ℕ := 0
  lastAttempt : ℚ := 0
  acked : Bool := false
  deriving DecidableEq

/-- A file is named by the hash of its queue. -/
structure MessageStore (P : Type*) where
  messages : Dict String (QueueMessage P) := Dict.empty
  queues : Dict String (List String) := Dict.empty
  files : Dict ℕ (List (QueueMessage P)) := Dict.empty

namespace MessageStore

variable {P : Type*}

/-- `self.queues.get(queue_name, [])`. -/
def queue (s : MessageStore P) (queueName : String) : List String :=
  (s.queues.get? queueName).getD []

/-- `queues` is a defaultdict: looking a queue up makes its entry. -/
def saveQueue (hash : String → ℕ) (s : MessageStore P) (queueName : String) : MessageStore P :=
  { s with
    queues := s.queues.set queueName (s.queue queueName)
    files := s.files.set (hash queueName) ((s.queue queueName).filterMap s.messages.get?) }

def add (hash : String → ℕ) (s : MessageStore P) (message : QueueMessage P) : MessageStore P :=
  saveQueue hash
    { s with
      messages := s.messages.set message.id message
      queues := s.queues.set message.queueName (s.queue message.queueName ++ [message.id]) }
    message.queueName

def get (s : MessageStore P) (messageId : String) : Option (QueueMessage P) :=
  s.messages.get? messageId

/-- The loop of `get_pending` over the ids of the queue. -/
def collectPending (s : MessageStore P) (limit : ℤ) :
    List String → List (QueueMessage P) → List (QueueMessage P)
  | [], result => result
  | msgId :: rest, result =>
    match s.messages.get? msgId with
    | some msg =>
      if msg.acked then s.collectPending limit rest result
      else
        let result := result ++ [msg]
        if result.length ≥ limit then result else s.collectPending limit rest result
    | none => s.collectPending limit rest result

def getPending (s : MessageStore P) (queueName : String) (limit : ℤ) : List (QueueMessage P) :=
  s.collectPending limit (s.queue queueName) []

/-- A stored message is changed in place and its queue saved. -/
def edit (hash : String → ℕ) (f : QueueMessage P → QueueMessage P) (s : MessageStore P)
    (messageId : String) : MessageStore P :=
  match s.messages.get? messageId with
  | none => s
  | some msg => saveQueue hash { s with messages := s.messages.set messageId (f msg) } msg.queueName

/-- `ack` also returns whether the message is stored. -/
def ack (hash : String → ℕ) (s : MessageStore P) (messageId : String) : MessageStore P × Bool :=
  (s.edit hash (fun msg => { msg with acked := true }) messageId, s.messages.contains messageId)

def nack (hash : String → ℕ) (now : ℚ) (s : MessageStore P) (messageId : String) :
    MessageStore P :=
  s.edit hash (fun msg => { msg with attempts := msg.attempts + 1, lastAttempt := now }) messageId

/-- The message with this id is stored and not acked. -/
def pendingId (s : MessageStore P) (messageId : String) : Bool :=
  (s.messages.get? messageId).any fun msg => !msg.acked

def getQueueSize (s : MessageStore P) (queueName : String) : ℕ :=
  ((s.queue queueName).filter s.pendingId).length

/-! ## Lookups after an operation -/

@[simp] theorem messages_saveQueue (hash : String → ℕ) (s : MessageStore P) (queueName : String) :
    (s.saveQueue hash queueName).messages = s.messages := rfl

@[simp] theorem queue_saveQueue (hash : String → ℕ) (s : MessageStore P)
    (queueName other : String) : (s.saveQueue hash queueName).queue other = s.queue other := by
  show ((s.queues.set queueName (s.queue queueName)).get? other).getD [] = _
  rw [Dict.get?_set]
  split
  · rename_i heq
    rw [← heq]
    rfl
  · rfl

theorem get_add (hash : String → ℕ) (s : MessageStore P) (message : QueueMessage P) (id : String) :
    (s.add hash message).get id = if message.id = id then some message else s.get id :=
  Dict.get?_set s.messages message.id id message

theorem queue_appended (s : MessageStore P) (queueName id other : String) :
    ((s.queues.set queueName (s.queue queueName ++ [id])).get? other).getD [] =
      if queueName = other then s.queue other ++ [id] else s.queue other := by
  rw [Dict.get?_set]
  split
  · rename_i heq
    rw [heq]
    rfl
  · rfl

theorem queue_add (hash : String → ℕ) (s : MessageStore P) (message : QueueMessage P)
    (queueName : String) : (s.add hash message).queue queueName =
      if message.queueName = queueName then s.queue queueName ++ [message.id]
      else s.queue queueName := by
  unfold add
  rw [queue_saveQueue]
  exact s.queue_appended message.queueName message.id queueName

theorem get_edit (hash : String → ℕ) (f : QueueMessage P → QueueMessage P) (s : MessageStore P)
    (messageId id : String) :
    (s.edit hash f messageId).get id =
      if messageId = id then (s.get id).map f else s.get id := by
  unfold edit get
  cases h : s.messages.get? messageId with
  | none =>
    show s.messages.get? id = _
    split
    · rename_i heq
      rw [← heq, h]
      rfl
    · rfl
  | some msg =>
    dsimp only
    rw [messages_saveQueue, Dict.get?_set]
    split
    · rename_i heq
      rw [← heq, h]
      rfl
    · rfl

theorem get_ack (hash : String → ℕ) (s : MessageStore P) (messageId id : String) :
    (s.ack hash messageId).1.get id =
      if messageId = id then (s.get id).map fun msg => { msg with acked := true } else s.get id :=
  get_edit ..

@[simp] theorem queue_edit (hash : String → ℕ) (f : QueueMessage P → QueueMessage P)
    (s : MessageStore P) (messageId queueName : String) :
    (s.edit hash f messageId).queue queueName = s.queue queueName := by
  unfold edit
  cases s.messages.get? messageId with
  | none => rfl
  | some msg => exact queue_saveQueue ..

/-! ## Pending messages -/

/-- All messages of a queue that are stored and not acked, in its order. -/
def pending (s : MessageStore P) (queueName : String) : List (QueueMessage P) :=
  (s.queue queueName).filterMap fun msgId => (s.messages.get? msgId).filter fun msg => !msg.acked

theorem length_pending (s : MessageStore P) (queueName : String) :
    (s.pending queueName).length = s.getQueueSize queueName := by
  unfold pending getQueueSize
  induction s.queue queueName with
  | nil => rfl
  | cons msgId rest ih =>
    rw [List.filterMap_cons, List.filter_cons, pendingId]
    cases h : s.messages.get? msgId with
    | none => simpa using ih
    | some msg => cases hacked : msg.acked <;> simpa [Option.filter, hacked] using ih

theorem collectPending_eq (s : MessageStore P) {limit : ℤ} (ids : List String)
    {result : List (QueueMessage P)} (h : result.length < limit) :
    s.collectPending limit ids result = result ++
      (ids.filterMap fun msgId => (s.messages.get? msgId).filter fun msg => !msg.acked).take
        (limit.toNat - result.length) := by
  induction ids generalizing result with
  | nil => simp [collectPending]
  | cons msgId rest ih =>
    unfold collectPending
    cases hget : s.messages.get? msgId with
    | none => simpa [hget] using ih h
    | some msg =>
      cases hacked : msg.acked with
      | true => simpa [hget, hacked] using ih h
      | false =>
        have hpos : limit.toNat - result.length = limit.toNat - (result.length + 1) + 1 := by omega
        simp only [hget, hacked, Bool.false_eq_true, ↓reduceIte, List.filterMap_cons, hpos,
          Option.filter_some, Bool.not_false, List.take_succ_cons]
        split
        · rename_i hfull
          simp only [List.length_append, List.length_singleton, ge_iff_le] at hfull
          have : limit.toNat - (result.length + 1) = 0 := by omega
          rw [this, List.take_zero]
        · rename_i hfull
          rw [ih (by omega)]
          simp

theorem mem_collectPending {s : MessageStore P} {limit : ℤ} {ids : List String}
    {result : List (QueueMessage P)} {msg : QueueMessage P}
    (h : msg ∈ s.collectPending limit ids result) :
    msg ∈ result ∨ ∃ id ∈ ids, s.get id = some msg ∧ msg.acked = false := by
  induction ids generalizing result with
  | nil => exact Or.inl h
  | cons id ids ih =>
    have hrest : ∀ {result}, msg ∈ s.collectPending limit ids result →
        msg ∈ result ∨ ∃ id' ∈ id :: ids, s.get id' = some msg ∧ msg.acked = false := fun h =>
      (ih h).imp_right fun ⟨id', hid', hget⟩ => ⟨id', List.mem_cons_of_mem _ hid', hget⟩
    unfold collectPending at h
    split at h
    · rename_i found hget
      split at h
      · exact hrest h
      · rename_i hpending
        have hmem : msg ∈ result ++ [found] →
            msg ∈ result ∨ ∃ id' ∈ id :: ids, s.get id' = some msg ∧ msg.acked = false := by
          intro hmem
          rcases List.mem_append.mp hmem with hmem | hmem
          · exact Or.inl hmem
          · obtain rfl := List.mem_singleton.mp hmem
            exact Or.inr ⟨id, List.mem_cons_self .., hget, eq_false_of_ne_true hpending⟩
        dsimp only at h
        split at h
        · exact hmem h
        · exact (hrest h).elim hmem Or.inr
    · exact hrest h

theorem mem_getPending {s : MessageStore P} {queueName : String} {limit : ℤ}
    {msg : QueueMessage P} (h : msg ∈ s.getPending queueName limit) :
    ∃ id ∈ s.queue queueName, s.get id = some msg ∧ msg.acked = false :=
  (mem_collectPending h).resolve_left List.not_mem_nil

theorem getPending_of_pos (s : MessageStore P) (queueName : String) {limit : ℤ} (h : 0 < limit) :
    s.getPending queueName limit = (s.pending queueName).take limit.toNat := by
  unfold getPending pending
  rw [s.collectPending_eq (s.queue queueName) (by simpa using h)]
  rfl

end MessageStore

end Pynchronize
