import Pynchronize.Lib.Exclusive
import Pynchronize.Queue.Uniqueness

/-!
# The consumers of a node

`_consumer_loop` with the handlers of `subscribe`, beside `consume`,
`_handle_consume` and `_redelivery_loop`. One action runs one coroutine from an
`await` to the next. What a handler does is its own: it returns or raises when
it likes. `ConsumerNode.trace` keeps what was delivered and what left `in_flight`.
-/

namespace Pynchronize

open Lib

inductive DeliveryEvent
  /-- Returned to a consumer, or passed to the first handler of its queue. -/
  | delivered (messageId : String)
  /-- Passed to the next handler after one failed. -/
  | passedOn (messageId : String)
  | removed (messageId : String)
  deriving DecidableEq

/-- A message with a handler, and what the loop does after it. -/
structure HandlerCall where
  /-- How many queues `consumers` had when the iteration started. -/
  size : ℕ
  queueName : String
  messageId : String
  handler : ℕ
  messages : List String
  queues : List String

/-- Where `_consumer_loop` is suspended; it is dead after an exception of its own. -/
inductive ConsumerLoop
  | sleeping
  | handling (call : HandlerCall)
  | acking (call : HandlerCall)
  | dead

/-- `consumers` has the number of handlers of each queue. -/
structure ConsumerNode (P : Type*) where
  node : QueueNode P
  consumers : Dict String ℕ := Dict.empty
  loop : ConsumerLoop := .sleeping
  trace : List DeliveryEvent := []

/-- `targeted`: the node is one of the responsible nodes; `responsible`: it serves the queue. -/
inductive ConsumerAction (P : Type*)
  | publish (targeted : Bool) (queueName : String) (payload : P) (messageId : String) (now : ℚ)
  | handlePublish (message : QueueMessage P)
  | subscribe (queueName : String)
  | consume (responsible : Bool) (queueName : String) (limit : ℤ) (now : ℚ)
  | handleConsume (queueName : String) (limit : ℤ) (now : ℚ)
  | ack (targeted : Bool) (messageId : String)
  | handleAck (messageId : String)
  /-- A round of `_redelivery_loop`. -/
  | redeliver (now : ℚ)
  /-- The sleep of `_consumer_loop` is over. -/
  | wake (now : ℚ)
  | handlerReturns (success targeted : Bool) (now : ℚ)
  | handlerRaises (now : ℚ)
  /-- The `ack` of the loop comes back from its sends. -/
  | ackReturns (now : ℚ)
  | ackRaises (now : ℚ)

namespace ConsumerNode

variable {P : Type*}

def boot (cfg : QueueConfig) (clock : String → ℚ) (nodeId : String) : ConsumerNode P where
  node := QueueNode.boot cfg clock nodeId

def InFlight (s : ConsumerNode P) (messageId : String) : Prop :=
  s.node.inFlight.contains messageId = true

def handlers (s : ConsumerNode P) (queueName : String) : ℕ :=
  (s.consumers.get? queueName).getD 0

/-- `n` becomes `n'`, which may have taken a message out of `in_flight`. -/
def changed (s : ConsumerNode P) (n' : QueueNode P) (messageId : String) : ConsumerNode P :=
  { s with
    node := n'
    trace := s.trace ++
      if s.node.inFlight.contains messageId && !n'.inFlight.contains messageId then
        [.removed messageId]
      else [] }

/-- The part of `ack` before its sends. -/
def ackHere (cfg : QueueConfig) (s : ConsumerNode P) (targeted : Bool) (messageId : String) :
    ConsumerNode P :=
  if targeted && (s.node.store.get messageId).isSome then
    s.changed (s.node.handleAck cfg messageId) messageId
  else s

def redeliverOne (cfg : QueueConfig) (now : ℚ) (s : ConsumerNode P) (messageId : String) :
    ConsumerNode P :=
  s.changed (s.node.redeliver cfg now messageId) messageId

/-- The messages that `get_pending` gives. -/
def pendingIds (s : ConsumerNode P) (queueName : String) (limit : ℤ) : List String :=
  (s.node.store.getPending queueName limit).map QueueMessage.id

def handOut (now : ℚ) (s : ConsumerNode P) (queueName : String) (limit : ℤ) : ConsumerNode P :=
  { s with
    node := (s.node.handleConsume now queueName limit).1
    trace := s.trace ++ (s.pendingIds queueName limit).map .delivered }

/-! ## The consumer loop -/

/-- The first message that is not in flight, and those after it. -/
def takeUp (inFlight : Dict String ℚ) : List String → Option (String × List String)
  | [] => none
  | messageId :: messages =>
    if inFlight.contains messageId then takeUp inFlight messages else some (messageId, messages)

/-- A message gets its mark and goes to the first handler. -/
def startRound (now : ℚ) (s : ConsumerNode P) (size : ℕ) (queueName messageId : String)
    (messages queues : List String) : ConsumerNode P :=
  { s with
    node := { s.node with inFlight := s.node.inFlight.set messageId now }
    loop := .handling ⟨size, queueName, messageId, 0, messages, queues⟩
    trace := s.trace ++ [.delivered messageId] }

/-- The iteration over `consumers` goes on. It raises when a queue was added to the dict. -/
def nextQueue (now : ℚ) (s : ConsumerNode P) (size : ℕ) : List String → ConsumerNode P
  | [] =>
    if s.consumers.keys.length = size then { s with loop := .sleeping }
    else { s with loop := .dead }
  | queueName :: queues =>
    if s.consumers.keys.length = size then
      if s.handlers queueName = 0 then s.nextQueue now size queues
      else match takeUp s.node.inFlight (s.pendingIds queueName 10) with
        | some (messageId, messages) => s.startRound now size queueName messageId messages queues
        | none => s.nextQueue now size queues
    else { s with loop := .dead }

/-- The iteration over the messages of a queue goes on. -/
def nextMessage (now : ℚ) (s : ConsumerNode P) (call : HandlerCall) : ConsumerNode P :=
  match takeUp s.node.inFlight call.messages with
  | some (messageId, messages) =>
    s.startRound now call.size call.queueName messageId messages call.queues
  | none => s.nextQueue now call.size call.queues

/-- There is a handler after the one that was called. `handlers` is the list itself, so it has
    those that subscribed in between. -/
def hasNext (s : ConsumerNode P) (call : HandlerCall) : Bool :=
  call.handler + 1 < s.handlers call.queueName

/-- The handler was no success. -/
def nextHandler (now : ℚ) (s : ConsumerNode P) (call : HandlerCall) : ConsumerNode P :=
  if s.hasNext call then
    { s with
      loop := .handling { call with handler := call.handler + 1 }
      trace := s.trace ++ [.passedOn call.messageId] }
  else
    (s.changed { s.node with inFlight := s.node.inFlight.erase call.messageId }
      call.messageId).nextMessage now call

/-! ## Steps -/

def step (cfg : QueueConfig) (s : ConsumerNode P) : ConsumerAction P → Option (ConsumerNode P)
  | .publish targeted queueName payload messageId now =>
    some { s with
      node := RecordedNode.nodeStep cfg s.node (.publish targeted queueName payload messageId now) }
  | .handlePublish message => some { s with node := s.node.handlePublish cfg message }
  | .subscribe queueName =>
    some { s with consumers := s.consumers.set queueName (s.handlers queueName + 1) }
  | .consume responsible queueName limit now =>
    some (if responsible then s.handOut now queueName limit else s)
  | .handleConsume queueName limit now => some (s.handOut now queueName limit)
  | .ack targeted messageId => some (s.ackHere cfg targeted messageId)
  | .handleAck messageId => some (s.changed (s.node.handleAck cfg messageId) messageId)
  | .redeliver now => some (s.node.inFlight.keys.foldl (redeliverOne cfg now) s)
  | .wake now =>
    match s.loop with
    | .sleeping => some (s.nextQueue now s.consumers.keys.length s.consumers.keys)
    | _ => none
  | .handlerReturns success targeted now =>
    match s.loop with
    | .handling call =>
      if success then
        -- an unknown message is not acked anywhere, and `ack` returns at once
        if (s.node.store.get call.messageId).isSome then
          some { s.ackHere cfg targeted call.messageId with loop := .acking call }
        else some (s.nextMessage now call)
      else some (s.nextHandler now call)
    | _ => none
  | .handlerRaises now =>
    match s.loop with
    | .handling call => some (s.nextHandler now call)
    | _ => none
  | .ackReturns now =>
    match s.loop with
    | .acking call => some (s.nextMessage now call)
    | _ => none
  | .ackRaises now =>
    match s.loop with
    | .acking call => some (s.nextHandler now call)
    | _ => none

/-- The ways in which a step is possible. The loop moves only on what it is suspended for. -/
inductive Stepped (cfg : QueueConfig) (s : ConsumerNode P) :
    ConsumerAction P → ConsumerNode P → Prop
  | publish (targeted : Bool) (queueName : String) (payload : P) (messageId : String) (now : ℚ) :
    Stepped cfg s (.publish targeted queueName payload messageId now)
      { s with
        node := RecordedNode.nodeStep cfg s.node
          (.publish targeted queueName payload messageId now) }
  | handlePublish (message : QueueMessage P) :
    Stepped cfg s (.handlePublish message) { s with node := s.node.handlePublish cfg message }
  | subscribe (queueName : String) :
    Stepped cfg s (.subscribe queueName)
      { s with consumers := s.consumers.set queueName (s.handlers queueName + 1) }
  | consume (queueName : String) (limit : ℤ) (now : ℚ) :
    Stepped cfg s (.consume true queueName limit now) (s.handOut now queueName limit)
  | notResponsible (queueName : String) (limit : ℤ) (now : ℚ) :
    Stepped cfg s (.consume false queueName limit now) s
  | handleConsume (queueName : String) (limit : ℤ) (now : ℚ) :
    Stepped cfg s (.handleConsume queueName limit now) (s.handOut now queueName limit)
  | ack (targeted : Bool) (messageId : String) :
    Stepped cfg s (.ack targeted messageId) (s.ackHere cfg targeted messageId)
  | handleAck (messageId : String) :
    Stepped cfg s (.handleAck messageId) (s.changed (s.node.handleAck cfg messageId) messageId)
  | redeliver (now : ℚ) :
    Stepped cfg s (.redeliver now) (s.node.inFlight.keys.foldl (redeliverOne cfg now) s)
  | wake (now : ℚ) (hloop : s.loop = .sleeping) :
    Stepped cfg s (.wake now) (s.nextQueue now s.consumers.keys.length s.consumers.keys)
  | handled {call : HandlerCall} (targeted : Bool) (now : ℚ) (hloop : s.loop = .handling call) :
    Stepped cfg s (.handlerReturns true targeted now)
      { s.ackHere cfg targeted call.messageId with loop := .acking call }
  | handledUnknown {call : HandlerCall} (targeted : Bool) (now : ℚ)
      (hloop : s.loop = .handling call) :
    Stepped cfg s (.handlerReturns true targeted now) (s.nextMessage now call)
  | declined {call : HandlerCall} (targeted : Bool) (now : ℚ) (hloop : s.loop = .handling call) :
    Stepped cfg s (.handlerReturns false targeted now) (s.nextHandler now call)
  | handlerRaises {call : HandlerCall} (now : ℚ) (hloop : s.loop = .handling call) :
    Stepped cfg s (.handlerRaises now) (s.nextHandler now call)
  | ackReturns {call : HandlerCall} (now : ℚ) (hloop : s.loop = .acking call) :
    Stepped cfg s (.ackReturns now) (s.nextMessage now call)
  | ackRaises {call : HandlerCall} (now : ℚ) (hloop : s.loop = .acking call) :
    Stepped cfg s (.ackRaises now) (s.nextHandler now call)

theorem stepped {cfg : QueueConfig} {s s' : ConsumerNode P} {a : ConsumerAction P}
    (h : s.step cfg a = some s') : Stepped cfg s a s' := by
  cases a with
  | publish => obtain rfl := Option.some.inj h; exact .publish ..
  | handlePublish => obtain rfl := Option.some.inj h; exact .handlePublish ..
  | subscribe => obtain rfl := Option.some.inj h; exact .subscribe ..
  | consume responsible =>
    obtain rfl := Option.some.inj h
    cases responsible with
    | false => exact .notResponsible ..
    | true => exact .consume ..
  | handleConsume => obtain rfl := Option.some.inj h; exact .handleConsume ..
  | ack => obtain rfl := Option.some.inj h; exact .ack ..
  | handleAck => obtain rfl := Option.some.inj h; exact .handleAck ..
  | redeliver => obtain rfl := Option.some.inj h; exact .redeliver ..
  | wake now =>
    simp only [step] at h
    split at h
    · obtain rfl := Option.some.inj h
      exact .wake now ‹_›
    · cases h
  | handlerReturns success targeted now =>
    simp only [step] at h
    split at h
    · cases success with
      | false =>
        obtain rfl := Option.some.inj h
        exact .declined targeted now ‹_›
      | true =>
        rw [if_pos rfl] at h
        split at h
        · obtain rfl := Option.some.inj h
          exact .handled targeted now ‹_›
        · obtain rfl := Option.some.inj h
          exact .handledUnknown targeted now ‹_›
    · cases h
  | handlerRaises now =>
    simp only [step] at h
    split at h
    · obtain rfl := Option.some.inj h
      exact .handlerRaises now ‹_›
    · cases h
  | ackReturns now =>
    simp only [step] at h
    split at h
    · obtain rfl := Option.some.inj h
      exact .ackReturns now ‹_›
    · cases h
  | ackRaises now =>
    simp only [step] at h
    split at h
    · obtain rfl := Option.some.inj h
      exact .ackRaises now ‹_›
    · cases h

/-! ## What may be handed out -/

/-- `consume` and `_handle_consume` hand out different messages, none of which is in flight. -/
def handsOutFree (s : ConsumerNode P) : ConsumerAction P → Bool
  | .consume responsible queueName limit _ =>
    !responsible || (decide (s.pendingIds queueName limit).Nodup &&
      (s.pendingIds queueName limit).all fun id => !s.node.inFlight.contains id)
  | .handleConsume queueName limit _ =>
    decide (s.pendingIds queueName limit).Nodup &&
      (s.pendingIds queueName limit).all fun id => !s.node.inFlight.contains id
  | _ => true

/-- The message that goes to a further handler. -/
def passesOn (s : ConsumerNode P) : ConsumerAction P → Option String
  | .handlerReturns success _ _ =>
    match s.loop with
    | .handling call => if !success && s.hasNext call then some call.messageId else none
    | _ => none
  | .handlerRaises _ =>
    match s.loop with
    | .handling call => if s.hasNext call then some call.messageId else none
    | _ => none
  | .ackRaises _ =>
    match s.loop with
    | .acking call => if s.hasNext call then some call.messageId else none
    | _ => none
  | _ => none

/-! ## Deliveries and removals -/

/-- `every`: each handler that gets the message is a delivery of its own. -/
def opens (every : Bool) : DeliveryEvent → String → Prop
  | .delivered messageId, id => messageId = id
  | .passedOn messageId, id => every = true ∧ messageId = id
  | .removed _, _ => False

def closes : DeliveryEvent → String → Prop
  | .removed messageId, id => messageId = id
  | _, _ => False

/-- No message is delivered again before it was removed. -/
def OnceInFlight (every : Bool) (s : ConsumerNode P) : Prop :=
  Exclusive.Alternates (opens every) closes s.trace

/-- Delivered, and not removed since. -/
def Outstanding (every : Bool) (s : ConsumerNode P) (id : String) : Prop :=
  Exclusive.Open (opens every) closes s.trace id

theorem opens_delivered (every : Bool) (a b : String) :
    opens every (.delivered a) b ↔ a = b := Iff.rfl

theorem not_closes_delivered (a b : String) : ¬ closes (.delivered a) b := id

theorem Outstanding.eq_of_trace {every : Bool} {s s' : ConsumerNode P} (h : s'.trace = s.trace)
    (id : String) : s'.Outstanding every id ↔ s.Outstanding every id := by
  unfold Outstanding
  rw [h]

/-! ## What a step does to the marks and to the trace -/

/-- A part of a step that delivers only what is not in flight and hands nothing on. -/
inductive Moves (s : ConsumerNode P) : ConsumerNode P → Prop
  | same {s' : ConsumerNode P} (hmarks : ∀ id, s'.InFlight id ↔ s.InFlight id)
      (htrace : s'.trace = s.trace) : Moves s s'
  | remove {t s' : ConsumerNode P} {messageId : String} (h : Moves s t)
      (hmarks : ∀ id, s'.InFlight id ↔ t.InFlight id ∧ id ≠ messageId)
      (htrace : s'.trace = t.trace ++ [.removed messageId]) : Moves s s'
  | deliver {t s' : ConsumerNode P} {messageId : String} (h : Moves s t)
      (hfree : ¬ t.InFlight messageId)
      (hmarks : ∀ id, s'.InFlight id ↔ id = messageId ∨ t.InFlight id)
      (htrace : s'.trace = t.trace ++ [.delivered messageId]) : Moves s s'

theorem Moves.refl (s : ConsumerNode P) : Moves s s := .same (fun _ => Iff.rfl) rfl

theorem Moves.trans {s t u : ConsumerNode P} (h : Moves s t) (h' : Moves t u) : Moves s u := by
  induction h' with
  | same hmarks htrace =>
    cases h with
    | same hmarks' htrace' =>
      exact .same (fun id => (hmarks id).trans (hmarks' id)) (htrace.trans htrace')
    | remove h hmarks' htrace' =>
      exact .remove h (fun id => (hmarks id).trans (hmarks' id)) (htrace.trans htrace')
    | deliver h hfree hmarks' htrace' =>
      exact .deliver h hfree (fun id => (hmarks id).trans (hmarks' id)) (htrace.trans htrace')
  | remove _ hmarks htrace ih => exact .remove ih hmarks htrace
  | deliver _ hfree hmarks htrace ih => exact .deliver ih hfree hmarks htrace

/-- At most one message loses its mark. -/
theorem moves_changed (s : ConsumerNode P) {n' : QueueNode P} {messageId : String}
    (h : (∀ id, n'.inFlight.contains id = s.node.inFlight.contains id) ∨
      ∀ id, n'.inFlight.contains id = true ↔ s.InFlight id ∧ id ≠ messageId) :
    Moves s (s.changed n' messageId) := by
  rcases h with hsame | hmarks
  · refine .same (fun id => by unfold InFlight; rw [← hsame id]; rfl) ?_
    unfold changed
    rw [hsame, Bool.and_not_self]
    exact List.append_nil _
  · have hgone : n'.inFlight.contains messageId = false :=
      eq_false_of_ne_true fun h => ((hmarks messageId).mp h).2 rfl
    cases hcontains : s.node.inFlight.contains messageId with
    | true =>
      refine .remove (.refl s) hmarks ?_
      unfold changed
      rw [hcontains, hgone]
      rfl
    | false =>
      refine .same (fun id => (hmarks id).trans (and_iff_left_of_imp fun h heq => ?_)) ?_
      · subst heq
        unfold InFlight at h
        rw [hcontains] at h
        cases h
      · unfold changed
        rw [hcontains]
        exact List.append_nil _

theorem moves_handleAck (cfg : QueueConfig) (s : ConsumerNode P) (messageId : String) :
    Moves s (s.changed (s.node.handleAck cfg messageId) messageId) :=
  moves_changed s (Or.inr fun id => Dict.contains_erase s.node.inFlight messageId id)

theorem moves_ackHere (cfg : QueueConfig) (s : ConsumerNode P) (targeted : Bool)
    (messageId : String) : Moves s (s.ackHere cfg targeted messageId) := by
  unfold ackHere
  split
  · exact moves_handleAck cfg s messageId
  · exact .refl s

theorem moves_redeliverOne (cfg : QueueConfig) (now : ℚ) (s : ConsumerNode P) (messageId : String) :
    Moves s (s.redeliverOne cfg now messageId) := by
  refine moves_changed s ?_
  unfold QueueNode.redeliver
  split
  · split
    · exact Or.inr fun id => Dict.contains_erase s.node.inFlight messageId id
    · exact Or.inl fun _ => rfl
  · exact Or.inl fun _ => rfl

theorem moves_foldl_redeliverOne (cfg : QueueConfig) (now : ℚ) (ids : List String)
    (s : ConsumerNode P) : Moves s (ids.foldl (redeliverOne cfg now) s) := by
  induction ids generalizing s with
  | nil => exact .refl s
  | cons id ids ih => exact (moves_redeliverOne cfg now s id).trans (ih _)

theorem takeUp_spec {inFlight : Dict String ℚ} {ids rest : List String} {id : String}
    (h : takeUp inFlight ids = some (id, rest)) : inFlight.contains id = false := by
  induction ids with
  | nil => cases h
  | cons first ids ih =>
    unfold takeUp at h
    split at h
    · exact ih h
    · rename_i hfree
      obtain ⟨rfl, -⟩ := Prod.mk.inj (Option.some.inj h)
      exact eq_false_of_ne_true hfree

theorem moves_startRound (now : ℚ) {s : ConsumerNode P} (size : ℕ) (queueName : String)
    {messageId : String} (messages queues : List String)
    (hfree : s.node.inFlight.contains messageId = false) :
    Moves s (s.startRound now size queueName messageId messages queues) := by
  refine .deliver (.refl s) (by unfold InFlight; rw [hfree]; exact Bool.false_ne_true)
    (fun id => ?_) rfl
  exact Dict.contains_set s.node.inFlight messageId id now

theorem moves_nextQueue (now : ℚ) (s : ConsumerNode P) (size : ℕ) (queues : List String) :
    Moves s (s.nextQueue now size queues) := by
  induction queues with
  | nil =>
    unfold nextQueue
    split <;> exact .same (fun _ => Iff.rfl) rfl
  | cons queueName queues ih =>
    unfold nextQueue
    split
    · split
      · exact ih
      · split
        · rename_i htake
          exact moves_startRound now size queueName _ queues (takeUp_spec htake)
        · exact ih
    · exact .same (fun _ => Iff.rfl) rfl

theorem moves_nextMessage (now : ℚ) (s : ConsumerNode P) (call : HandlerCall) :
    Moves s (s.nextMessage now call) := by
  unfold nextMessage
  split
  · rename_i htake
    exact moves_startRound now _ _ _ _ (takeUp_spec htake)
  · exact moves_nextQueue now s _ _

/-- A step hands messages out, passes one on to the next handler, or does neither. -/
inductive Effect (s s' : ConsumerNode P) (a : ConsumerAction P) : Prop
  | moves (h : Moves s s') (hfree : s.handsOutFree a = true) (hnone : s.passesOn a = none)
  | passesOn {messageId : String} (hmarks : ∀ id, s'.InFlight id ↔ s.InFlight id)
      (htrace : s'.trace = s.trace ++ [.passedOn messageId]) (hfree : s.handsOutFree a = true)
      (hsome : s.passesOn a = some messageId)
  | handsOut {ids : List String} (hmarks : ∀ id, s'.InFlight id ↔ id ∈ ids ∨ s.InFlight id)
      (htrace : s'.trace = s.trace ++ ids.map .delivered)
      (hfree : s.handsOutFree a = true ↔ ids.Nodup ∧ ∀ id ∈ ids, ¬ s.InFlight id)
      (hnone : s.passesOn a = none)

theorem contains_markDelivered (now : ℚ) {n : QueueNode P} {messageId : String}
    (hstored : (n.store.get messageId).isSome = true) (id : String) :
    (n.markDelivered now messageId).inFlight.contains id = true ↔
      id = messageId ∨ n.inFlight.contains id = true := by
  unfold QueueNode.markDelivered
  split
  · rename_i hnone
    rw [hnone] at hstored
    cases hstored
  · exact Dict.contains_set n.inFlight messageId id now

theorem contains_foldl_markDelivered (now : ℚ) {n : QueueNode P} {ids : List String}
    (hstored : ∀ id ∈ ids, (n.store.get id).isSome = true) (id : String) :
    (ids.foldl (QueueNode.markDelivered now) n).inFlight.contains id = true ↔
      id ∈ ids ∨ n.inFlight.contains id = true := by
  induction ids generalizing n with
  | nil => simp
  | cons first ids ih =>
    have hnext : ∀ id ∈ ids, ((n.markDelivered now first).store.get id).isSome = true := by
      intro id hid
      obtain ⟨msg, hget⟩ := Option.isSome_iff_exists.mp (hstored id (List.mem_cons_of_mem _ hid))
      obtain ⟨msg', hget', -⟩ := (QueueNode.retains_markDelivered now n first).get hget
      exact Option.isSome_iff_exists.mpr ⟨msg', hget'⟩
    rw [List.foldl_cons, ih hnext,
      contains_markDelivered now (hstored first (List.mem_cons_self ..)), List.mem_cons]
    tauto

theorem inFlight_handOut (now : ℚ) {s : ConsumerNode P} (hs : s.node.store.Keyed)
    (queueName : String) (limit : ℤ) (id : String) :
    (s.handOut now queueName limit).InFlight id ↔
      id ∈ s.pendingIds queueName limit ∨ s.InFlight id := by
  refine contains_foldl_markDelivered now (fun id hid => ?_) id
  obtain ⟨msg, hmsg, rfl⟩ := List.mem_map.mp hid
  obtain ⟨id, -, hget, -⟩ := MessageStore.mem_getPending hmsg
  rw [hs id msg hget, hget]
  rfl

theorem handsOut_free_iff (s : ConsumerNode P) (ids : List String) :
    (decide ids.Nodup && ids.all fun id => !s.node.inFlight.contains id) = true ↔
      ids.Nodup ∧ ∀ id ∈ ids, ¬ s.InFlight id := by
  simp only [Bool.and_eq_true, decide_eq_true_eq, List.all_eq_true, Bool.not_eq_true', InFlight,
    Bool.not_eq_true]

theorem effect_nextHandler {s : ConsumerNode P} (now : ℚ) (call : HandlerCall)
    {a : ConsumerAction P} (hfree : s.handsOutFree a = true)
    (hpasses : s.passesOn a = if s.hasNext call then some call.messageId else none) :
    Effect s (s.nextHandler now call) a := by
  unfold nextHandler
  split
  · rename_i hnext
    rw [if_pos hnext] at hpasses
    exact .passesOn (fun _ => Iff.rfl) rfl hfree hpasses
  · rename_i hlast
    rw [if_neg hlast] at hpasses
    refine .moves (.trans (moves_changed s (Or.inr fun id => ?_)) (moves_nextMessage now _ call))
      hfree hpasses
    exact Dict.contains_erase s.node.inFlight call.messageId id

theorem effect_step {cfg : QueueConfig} {s s' : ConsumerNode P} {a : ConsumerAction P}
    (hs : s.node.store.Keyed) (h : s.step cfg a = some s') : Effect s s' a := by
  cases stepped h with
  | publish targeted =>
    refine .moves (.same (fun _ => ?_) rfl) rfl rfl
    cases targeted <;> exact Iff.rfl
  | handlePublish message =>
    refine .moves (.same (fun id => ?_) rfl) rfl rfl
    show (s.node.handlePublish cfg message).inFlight.contains id = true ↔ _
    unfold QueueNode.handlePublish
    split <;> exact Iff.rfl
  | subscribe => exact .moves (.same (fun _ => Iff.rfl) rfl) rfl rfl
  | consume queueName limit now =>
    exact .handsOut (inFlight_handOut now hs queueName limit) rfl
      (s.handsOut_free_iff (s.pendingIds queueName limit)) rfl
  | notResponsible => exact .moves (.refl s) rfl rfl
  | handleConsume queueName limit now =>
    exact .handsOut (inFlight_handOut now hs queueName limit) rfl
      (s.handsOut_free_iff (s.pendingIds queueName limit)) rfl
  | ack targeted messageId => exact .moves (moves_ackHere cfg s targeted messageId) rfl rfl
  | handleAck messageId => exact .moves (moves_handleAck cfg s messageId) rfl rfl
  | redeliver now => exact .moves (moves_foldl_redeliverOne cfg now _ s) rfl rfl
  | wake now => exact .moves (moves_nextQueue now s _ _) rfl rfl
  | @handled call targeted now hloop =>
    exact .moves (.trans (moves_ackHere cfg s targeted call.messageId)
      (.same (fun _ => Iff.rfl) rfl)) rfl (by simp [passesOn, hloop])
  | handledUnknown targeted now hloop =>
    exact .moves (moves_nextMessage now s _) rfl (by simp [passesOn, hloop])
  | declined targeted now hloop =>
    exact effect_nextHandler now _ rfl (by simp [passesOn, hloop])
  | handlerRaises now hloop => exact effect_nextHandler now _ rfl (by simp [passesOn, hloop])
  | ackReturns now => exact .moves (moves_nextMessage now s _) rfl rfl
  | ackRaises now hloop => exact effect_nextHandler now _ rfl (by simp [passesOn, hloop])

/-! ## Messages stay under their ids -/

theorem store_nextQueue (now : ℚ) (s : ConsumerNode P) (size : ℕ) (queues : List String) :
    (s.nextQueue now size queues).node.store = s.node.store := by
  induction queues with
  | nil =>
    unfold nextQueue
    split <;> rfl
  | cons queueName queues ih =>
    unfold nextQueue
    split
    · split
      · exact ih
      · split
        · rfl
        · exact ih
    · rfl

theorem store_nextMessage (now : ℚ) (s : ConsumerNode P) (call : HandlerCall) :
    (s.nextMessage now call).node.store = s.node.store := by
  unfold nextMessage
  split
  · rfl
  · exact store_nextQueue now s _ _

theorem store_nextHandler (now : ℚ) (s : ConsumerNode P) (call : HandlerCall) :
    (s.nextHandler now call).node.store = s.node.store := by
  unfold nextHandler
  split
  · rfl
  · exact store_nextMessage now _ call

theorem keeps_ackHere (cfg : QueueConfig) (s : ConsumerNode P) (targeted : Bool)
    (messageId : String) :
    MessageStore.Keeps s.node.store (s.ackHere cfg targeted messageId).node.store := by
  unfold ackHere
  split
  · exact MessageStore.keeps_ack cfg.hash s.node.store messageId
  · exact .of_retains (.refl _)

theorem retains_foldl_redeliverOne (cfg : QueueConfig) (now : ℚ) (ids : List String)
    (s : ConsumerNode P) :
    MessageStore.Retains s.node.store (ids.foldl (redeliverOne cfg now) s).node.store := by
  induction ids generalizing s with
  | nil => exact .refl _
  | cons id ids ih =>
    exact (QueueNode.retains_redeliver cfg now s.node id).trans (ih (s.redeliverOne cfg now id))

theorem keyed_step {cfg : QueueConfig} {s s' : ConsumerNode P} {a : ConsumerAction P}
    (hs : s.node.store.Keyed) (h : s.step cfg a = some s') : s'.node.store.Keyed := by
  cases stepped h with
  | publish targeted =>
    cases targeted with
    | false => exact hs
    | true => exact MessageStore.keyed_add cfg.hash hs _
  | handlePublish message =>
    show (s.node.handlePublish cfg message).store.Keyed
    unfold QueueNode.handlePublish
    split
    · exact hs
    · exact MessageStore.keyed_add cfg.hash hs message
  | subscribe | notResponsible => exact hs
  | consume queueName limit now | handleConsume queueName limit now =>
    exact (MessageStore.Keeps.of_retains
      (QueueNode.retains_handleConsume now s.node queueName limit)).keyed hs
  | ack targeted messageId => exact (keeps_ackHere cfg s targeted messageId).keyed hs
  | handleAck messageId =>
    exact (MessageStore.keeps_ack cfg.hash s.node.store messageId).keyed hs
  | redeliver now =>
    exact (MessageStore.Keeps.of_retains (retains_foldl_redeliverOne cfg now _ s)).keyed hs
  | wake => rwa [store_nextQueue]
  | handled targeted => exact (keeps_ackHere cfg s targeted _).keyed hs
  | handledUnknown | ackReturns => rwa [store_nextMessage]
  | declined | handlerRaises | ackRaises => rwa [store_nextHandler]

/-! ## Marks and deliveries -/

/-- Every message in flight is outstanding. -/
def Covers (every : Bool) (s : ConsumerNode P) : Prop :=
  ∀ id, s.InFlight id → s.Outstanding every id

/-- The messages in flight are the outstanding ones. -/
def Tracks (every : Bool) (s : ConsumerNode P) : Prop :=
  ∀ id, s.Outstanding every id ↔ s.InFlight id

theorem outstanding_remove {every : Bool} {s s' : ConsumerNode P} {messageId : String}
    (h : s'.trace = s.trace ++ [.removed messageId]) (id : String) :
    s'.Outstanding every id ↔ s.Outstanding every id ∧ id ≠ messageId := by
  unfold Outstanding
  rw [h, Exclusive.open_concat]
  exact ⟨fun hor => hor.elim False.elim fun ⟨ho, hne⟩ => ⟨ho, fun heq => hne heq.symm⟩,
    fun ⟨ho, hne⟩ => Or.inr ⟨ho, fun heq => hne heq.symm⟩⟩

theorem outstanding_deliver {every : Bool} {s s' : ConsumerNode P} (ids : List String)
    (h : s'.trace = s.trace ++ ids.map .delivered) (id : String) :
    s'.Outstanding every id ↔ id ∈ ids ∨ s.Outstanding every id := by
  unfold Outstanding
  rw [h, Exclusive.open_append_map (opens_delivered every) not_closes_delivered]

theorem onceInFlight_deliver {every : Bool} {s s' : ConsumerNode P} (ids : List String)
    (h : s'.trace = s.trace ++ ids.map .delivered) : s'.OnceInFlight every ↔
      s.OnceInFlight every ∧ ids.Nodup ∧ ∀ id ∈ ids, ¬ s.Outstanding every id := by
  unfold OnceInFlight Outstanding
  rw [h, Exclusive.alternates_append_map (opens_delivered every) not_closes_delivered]

theorem outstanding_passOn {every : Bool} {s s' : ConsumerNode P} {messageId : String}
    (h : s'.trace = s.trace ++ [.passedOn messageId]) (id : String) :
    s'.Outstanding every id ↔ every = true ∧ messageId = id ∨ s.Outstanding every id := by
  unfold Outstanding
  rw [h, Exclusive.open_concat]
  exact or_congr Iff.rfl (and_iff_left fun hc => hc)

theorem OnceInFlight.of_trace {every : Bool} {s s' : ConsumerNode P} {events : List DeliveryEvent}
    (h : s'.OnceInFlight every) (htrace : s'.trace = s.trace ++ events) :
    s.OnceInFlight every := by
  unfold OnceInFlight at h ⊢
  rw [htrace] at h
  exact h.of_append

theorem Moves.covers {every : Bool} {s s' : ConsumerNode P} (h : Moves s s')
    (hc : s.Covers every) : s'.Covers every := by
  induction h with
  | same hmarks htrace =>
    intro id hid
    exact (Outstanding.eq_of_trace htrace id).mpr (hc id ((hmarks id).mp hid))
  | remove _ hmarks htrace ih =>
    intro id hid
    obtain ⟨hid, hne⟩ := (hmarks id).mp hid
    exact (outstanding_remove htrace id).mpr ⟨ih id hid, hne⟩
  | @deliver t s' messageId _ hfree hmarks htrace ih =>
    intro id hid
    refine (outstanding_deliver [messageId] htrace id).mpr ?_
    exact ((hmarks id).mp hid).imp List.mem_singleton.mpr (ih id)

theorem Moves.trace {s s' : ConsumerNode P} (h : Moves s s') :
    ∃ events, s'.trace = s.trace ++ events := by
  induction h with
  | same hmarks htrace => exact ⟨[], by rw [htrace, List.append_nil]⟩
  | @remove t s' messageId _ hmarks htrace ih =>
    obtain ⟨events, heq⟩ := ih
    exact ⟨events ++ [.removed messageId], by rw [htrace, heq, List.append_assoc]⟩
  | @deliver t s' messageId _ hfree hmarks htrace ih =>
    obtain ⟨events, heq⟩ := ih
    exact ⟨events ++ [.delivered messageId], by rw [htrace, heq, List.append_assoc]⟩

theorem Moves.tracks {every : Bool} {s s' : ConsumerNode P} (h : Moves s s')
    (ht : s.Tracks every) :
    s'.Tracks every ∧ (s'.OnceInFlight every ↔ s.OnceInFlight every) := by
  induction h with
  | same hmarks htrace =>
    refine ⟨fun id => (Outstanding.eq_of_trace htrace id).trans ((ht id).trans (hmarks id).symm),
      ?_⟩
    unfold OnceInFlight
    rw [htrace]
  | remove _ hmarks htrace ih =>
    refine ⟨fun id => (outstanding_remove htrace id).trans ?_, Iff.trans ?_ ih.2⟩
    · rw [hmarks, ih.1 id]
    · unfold OnceInFlight
      rw [htrace]
      exact Exclusive.alternates_concat_of_not_opens fun _ hopens => hopens
  | @deliver t s' messageId _ hfree hmarks htrace ih =>
    refine ⟨fun id => (outstanding_deliver [messageId] htrace id).trans ?_,
      (onceInFlight_deliver [messageId] htrace).trans (Iff.trans ?_ ih.2)⟩
    · rw [hmarks, ih.1 id, List.mem_singleton]
    · refine and_iff_left ⟨List.nodup_singleton _, fun id hid => ?_⟩
      rw [List.mem_singleton.mp hid, ih.1]
      exact hfree

variable {cfg : QueueConfig} {s s' : ConsumerNode P} {a : ConsumerAction P}

theorem trace_step (hs : s.node.store.Keyed) (h : s.step cfg a = some s') :
    ∃ events, s'.trace = s.trace ++ events := by
  cases effect_step hs h with
  | moves h => exact h.trace
  | passesOn _ htrace => exact ⟨_, htrace⟩
  | handsOut _ htrace => exact ⟨_, htrace⟩

/-- Where handing on does not count, or does not happen, only handing out can deliver twice. -/
theorem tracks_step {every : Bool} (hs : s.node.store.Keyed) (ht : s.Tracks every)
    (hpasses : every = false ∨ s.passesOn a = none) (h : s.step cfg a = some s') :
    s'.Tracks every ∧
      (s'.OnceInFlight every ↔ s.OnceInFlight every ∧ s.handsOutFree a = true) := by
  cases effect_step hs h with
  | moves hm hfree =>
    obtain ⟨htracks, honce⟩ := hm.tracks ht
    exact ⟨htracks, honce.trans (and_iff_left hfree).symm⟩
  | passesOn hmarks htrace hfree hsome =>
    have hround : every = false := hpasses.resolve_right fun hnone => by
      rw [hnone] at hsome
      cases hsome
    subst hround
    refine ⟨fun id => (outstanding_passOn htrace id).trans ?_,
      Iff.trans ?_ (and_iff_left hfree).symm⟩
    · rw [hmarks, ← ht id]
      exact or_iff_right fun hor => Bool.false_ne_true hor.1
    · unfold OnceInFlight
      rw [htrace]
      exact Exclusive.alternates_concat_of_not_opens fun _ hopens => Bool.false_ne_true hopens.1
  | handsOut hmarks htrace hfree =>
    refine ⟨fun id => (outstanding_deliver _ htrace id).trans ?_, ?_⟩
    · rw [hmarks, ht id]
    · rw [onceInFlight_deliver _ htrace, hfree]
      simp only [ht _]

theorem covers_step (hs : s.node.store.Keyed) (hc : s.Covers true) (h : s.step cfg a = some s') :
    s'.Covers true ∧ (s'.OnceInFlight true →
      s.handsOutFree a = true ∧ ∀ id, s.passesOn a = some id → ¬ s.InFlight id) := by
  cases effect_step hs h with
  | moves hm hfree hnone =>
    refine ⟨hm.covers hc, fun _ => ⟨hfree, fun id hid => ?_⟩⟩
    rw [hnone] at hid
    cases hid
  | passesOn hmarks htrace hfree hsome =>
    refine ⟨fun id hid => (outstanding_passOn htrace id).mpr (Or.inr (hc id ((hmarks id).mp hid))),
      fun honce => ⟨hfree, fun id hid hflight => ?_⟩⟩
    obtain rfl := Option.some.inj (hsome.symm.trans hid)
    unfold OnceInFlight at honce
    rw [htrace, Exclusive.alternates_concat] at honce
    exact honce.2 _ ⟨rfl, rfl⟩ (hc _ hflight)
  | handsOut hmarks htrace hfree hnone =>
    refine ⟨fun id hid => (outstanding_deliver _ htrace id).mpr (((hmarks id).mp hid).imp_right
      (hc id)), fun honce => ⟨?_, fun id hid => ?_⟩⟩
    · obtain ⟨-, hnodup, hout⟩ := (onceInFlight_deliver _ htrace).mp honce
      exact hfree.mpr ⟨hnodup, fun id hid hflight => hout id hid (hc id hflight)⟩
    · rw [hnone] at hid
      cases hid

/-! ## Runs -/

theorem tracks_boot (every : Bool) (cfg : QueueConfig) (clock : String → ℚ) (nodeId : String) :
    (boot cfg clock nodeId : ConsumerNode P).Tracks every := by
  intro id
  refine iff_of_false (Exclusive.not_open_nil id) ?_
  intro h
  cases h

theorem onceInFlight_boot (every : Bool) (cfg : QueueConfig) (clock : String → ℚ)
    (nodeId : String) : (boot cfg clock nodeId : ConsumerNode P).OnceInFlight every :=
  Exclusive.alternates_nil

/-- A message whose rounds count as deliveries is delivered once in flight exactly when whatever
    `consume` and `_handle_consume` hand out is different and not in flight. Where every handler
    counts, nothing in flight may be passed on to a further handler either; if nothing is passed
    on at all, this is enough. -/
theorem delivered_once_iff {clock : String → ℚ} {nodeId : String} {acts : List (ConsumerAction P)}
    (hrun : Transition.run (step cfg) (boot cfg clock nodeId) acts = some s') :
    (s'.OnceInFlight false ↔ Transition.EachStep (step cfg)
      (fun s a => s.handsOutFree a = true) (boot cfg clock nodeId) acts) ∧
    (s'.OnceInFlight true → Transition.EachStep (step cfg)
      (fun s a => s.handsOutFree a = true ∧ ∀ id, s.passesOn a = some id → ¬ s.InFlight id)
      (boot cfg clock nodeId) acts) ∧
    (Transition.EachStep (step cfg)
      (fun s a => s.handsOutFree a = true ∧ s.passesOn a = none) (boot cfg clock nodeId) acts →
      s'.OnceInFlight true) := by
  have hkeyed : (boot cfg clock nodeId : ConsumerNode P).node.store.Keyed :=
    MessageStore.Tidy.empty.keyed
  have hthroughout : ∀ every, s'.OnceInFlight every →
      Transition.Throughout (step cfg) (OnceInFlight every) (boot cfg clock nodeId) acts := by
    intro every h
    refine (Transition.throughout_of_end (I := fun s => s.node.store.Keyed → s.OnceInFlight every)
      (fun s a t hstep ht hs => ?_) hrun fun _ => h).2.and
        (Transition.throughout_of_step (fun _ _ _ hs hstep => keyed_step hs hstep) hkeyed acts)
      |>.preserves (fun _ _ _ _ hI _ => hI.1 hI.2) (onceInFlight_boot every cfg clock nodeId)
    obtain ⟨events, htrace⟩ := trace_step hs hstep
    exact (ht (keyed_step hs hstep)).of_trace htrace
  refine ⟨?_, fun h => ?_, fun hsteps => ?_⟩
  · have hiff : Transition.Throughout (step cfg) (OnceInFlight false) (boot cfg clock nodeId) acts ↔
        Transition.EachStep (step cfg) (fun s a => s.handsOutFree a = true)
          (boot cfg clock nodeId) acts :=
      Transition.throughout_iff (J := fun s => s.node.store.Keyed ∧ s.Tracks false)
        (fun s a t hJ _ honce hstep =>
          (tracks_step hJ.1 hJ.2 (Or.inl rfl) hstep).2.trans (and_iff_right honce))
        ⟨hkeyed, tracks_boot false cfg clock nodeId⟩
        (Transition.throughout_of_step (fun s a t hJ hstep => ⟨keyed_step hJ.1 hstep,
          (tracks_step hJ.1 hJ.2 (Or.inl rfl) hstep).1⟩)
          ⟨hkeyed, tracks_boot false cfg clock nodeId⟩ acts)
        (onceInFlight_boot false cfg clock nodeId) hrun
    refine Iff.trans ⟨hthroughout false, fun h => ?_⟩ hiff
    exact h.prefix (onceInFlight_boot false cfg clock nodeId) List.prefix_rfl hrun
  · have hcovers : (boot cfg clock nodeId : ConsumerNode P).Covers true :=
      fun id hid => (tracks_boot true cfg clock nodeId id).mpr hid
    exact Transition.eachStep_of_throughout (J := fun s => s.node.store.Keyed ∧ s.Covers true)
      (fun s a t hJ honce hstep => (covers_step hJ.1 hJ.2 hstep).2 honce) ⟨hkeyed, hcovers⟩
      (Transition.throughout_of_step (fun s a t hJ hstep => ⟨keyed_step hJ.1 hstep,
        (covers_step hJ.1 hJ.2 hstep).1⟩) ⟨hkeyed, hcovers⟩ acts) (hthroughout true h) hrun
  · have hend := Transition.run_preserves
      (I := fun s => s.node.store.Keyed ∧ s.Tracks true ∧ s.OnceInFlight true)
      (fun s a t hI hP hstep => by
        obtain ⟨htracks, honce⟩ := tracks_step hI.1 hI.2.1 (Or.inr hP.2) hstep
        exact ⟨keyed_step hI.1 hstep, htracks, honce.mpr ⟨hI.2.2, hP.1⟩⟩)
      ⟨hkeyed, tracks_boot true cfg clock nodeId, onceInFlight_boot true cfg clock nodeId⟩
      hsteps hrun
    exact hend.2.2

/-! ## Concrete runs -/

/-- A message fails its handler, is consumed and lost by its consumer, comes back after the
    timeout and is acked by the handler. -/
def failedThenAcked : List (ConsumerAction ℕ) :=
  [.publish true "jobs" 7 "m1" 1, .subscribe "jobs", .wake 2, .handlerRaises 3,
    .consume true "jobs" 1 4, .wake 5, .redeliver 40, .wake 41, .handlerReturns true true 42,
    .ackReturns 43]

theorem delivered_once_iff_failedThenAcked :
    ∃ s', Transition.run (step RecordedNode.oneNode) (boot RecordedNode.oneNode (fun _ => 0) "a")
        failedThenAcked = some s' ∧ s'.trace = [.delivered "m1", .removed "m1", .delivered "m1",
          .removed "m1", .delivered "m1", .removed "m1"] ∧
      s'.OnceInFlight false ∧ s'.OnceInFlight true := by
  have hsteps : Transition.EachStep (step RecordedNode.oneNode)
      (fun s a => s.handsOutFree a = true ∧ s.passesOn a = none)
      (boot RecordedNode.oneNode (fun _ => 0) "a") failedThenAcked := by
    decide +kernel
  have hrun : (Transition.run (step RecordedNode.oneNode)
      (boot RecordedNode.oneNode (fun _ => 0) "a") failedThenAcked).any (fun s' =>
        decide (s'.trace = [.delivered "m1", .removed "m1", .delivered "m1", .removed "m1",
          .delivered "m1", .removed "m1"])) = true := by
    decide +kernel
  obtain ⟨s', hs', htrace⟩ := (Option.any_eq_true _ _).mp hrun
  obtain ⟨hrounds, -, hcalls⟩ := delivered_once_iff hs'
  exact ⟨s', hs', of_decide_eq_true htrace, hrounds.mpr (hsteps.imp fun _ _ _ h => h.1),
    hcalls hsteps⟩

/-- `consume` hands out a message that is in flight. -/
theorem consumed_twice_in_flight :
    ¬ ∀ (acts : List (ConsumerAction ℕ)) (s' : ConsumerNode ℕ),
      Transition.run (step RecordedNode.oneNode) (boot RecordedNode.oneNode (fun _ => 0) "a")
        acts = some s' → s'.OnceInFlight true := by
  intro hclaim
  have h := hclaim [.publish true "jobs" 7 "m1" 1, .consume true "jobs" 1 2,
    .consume true "jobs" 1 3] _ rfl
  obtain ⟨x, hx, -⟩ := h [] (.delivered "m1") [] (.delivered "m1") [] "m1" rfl rfl rfl
  cases hx

end ConsumerNode

end Pynchronize
