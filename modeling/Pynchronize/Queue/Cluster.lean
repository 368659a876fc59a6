import Mathlib.Logic.Function.Basic
import Pynchronize.Lib.Transition
import Pynchronize.Queue.Node

/-!
# A cluster of QueueNodes

The nodes, every request ever sent and every call of `publish`, `consume` and
`ack` ever started. One action runs one coroutine from an `await` to the next.
A request stays under way until it is delivered, late or never; `noReply` wakes
a caller whose request was not answered in time. A call whose ring lookup raises
changes nothing and is not an action.
-/

namespace Pynchronize

open Lib

inductive QueueRequest (P : Type*)
  | publish (message : QueueMessage P)
  | consume (queueName : String) (limit : ℤ)
  | ack (messageId : String)
  deriving DecidableEq

/-- Under way, or handled, with the messages of the answer if it has any. -/
inductive PacketStage (P : Type*)
  | inFlight
  | handled (response : Option (List (QueueMessage P)))
  deriving DecidableEq

/-- A request of the call `call`. -/
structure Packet (P : Type*) where
  call : ℕ
  dst : String
  request : QueueRequest P
  stage : PacketStage P
  deriving DecidableEq

/-- What was called; the message of a `publish` as it was made. -/
inductive QueueOp (P : Type*)
  | publish (message : QueueMessage P)
  | consume (queueName : String) (limit : ℤ)
  | ack (messageId : String)
  deriving DecidableEq

inductive QueueResult (P : Type*)
  | published (messageId : String)
  | messages (messages : List (QueueMessage P))
  | acked (result : Bool)
  deriving DecidableEq

/-- Suspended in `transport.send` with the nodes still to visit, or returned. -/
inductive QueueStage (P : Type*)
  | sending (packet : ℕ) (rest : List String)
  | returned (result : QueueResult P)
  deriving DecidableEq

/-- `object` is the message of a `publish` unless it is the very object that the store of the node
    holds, which other coroutines change. -/
structure QueueCall (P : Type*) where
  node : String
  op : QueueOp P
  object : Option (QueueMessage P)
  stage : QueueStage P
  deriving DecidableEq

structure QueueCluster (P : Type*) where
  nodes : String → QueueNode P
  packets : List (Packet P)
  calls : List (QueueCall P)

inductive QueueAction (P : Type*)
  | membership (i : String) (event : Membership.Event)
  | publish (i queueName : String) (payload : P) (messageId : String) (now : ℚ)
  | consume (i queueName : String) (limit : ℤ) (now : ℚ)
  | ack (i messageId : String)
  | redeliver (i messageId : String) (now : ℚ)
  | deliver (packet : ℕ) (now : ℚ)
  | reply (call : ℕ)
  | noReply (call : ℕ)

variable {P : Type*}

def QueueStage.isReturned : QueueStage P → Bool
  | .sending .. => false
  | .returned _ => true

namespace QueueCluster

def boot (cfg : QueueConfig) (clock : String → String → ℚ) : QueueCluster P where
  nodes i := QueueNode.boot cfg (clock i) i
  packets := []
  calls := []

/-! ## Single changes -/

def setNode (s : QueueCluster P) (i : String) (n : QueueNode P) : QueueCluster P :=
  { s with nodes := Function.update s.nodes i n }

def setStage (s : QueueCluster P) (k : ℕ) (call : QueueCall P) (stage : QueueStage P) :
    QueueCluster P :=
  { s with calls := s.calls.set k { call with stage := stage } }

def addCall (s : QueueCluster P) (call : QueueCall P) : QueueCluster P :=
  { s with calls := s.calls ++ [call] }

/-- A request handed to `transport.send`, for which the call waits. -/
def send (s : QueueCluster P) (k : ℕ) (call : QueueCall P) (dst : String)
    (request : QueueRequest P) (rest : List String) : QueueCluster P :=
  let packet : Packet P := ⟨k, dst, request, .inFlight⟩
  { s with packets := s.packets ++ [packet] }.setStage k call (.sending s.packets.length rest)

/-! ## The loop over the target nodes -/

/-- From the head of the loop up to the next `send` or through the `return`. -/
def sendNext (cfg : QueueConfig) (s : QueueCluster P) (k : ℕ) (call : QueueCall P)
    (request : QueueRequest P) (result : QueueResult P) : List String → QueueCluster P
  | [] => s.setStage k call (.returned result)
  | nodeId :: rest =>
    if nodeId = call.node ∨ nodeId ∉ cfg.nodes then s.sendNext cfg k call request result rest
    else s.send k call nodeId request rest

/-- What the message of a `publish` looks like now. -/
def current (s : QueueCluster P) (call : QueueCall P) (message : QueueMessage P) :
    QueueMessage P :=
  match call.object with
  | some object => object
  | none => ((s.nodes call.node).store.get message.id).getD message

/-- `transport.send` returns. -/
def resume (cfg : QueueConfig) (s : QueueCluster P) (k : ℕ) (call : QueueCall P)
    (rest : List String) (response : Option (List (QueueMessage P))) : QueueCluster P :=
  match call.op with
  | .publish message =>
    s.sendNext cfg k call (.publish (s.current call message)) (.published message.id) rest
  | .ack messageId => s.sendNext cfg k call (.ack messageId) (.acked true) rest
  | .consume .. => s.setStage k call (.returned (.messages (response.getD [])))

/-! ## Calls -/

/-- The store of node `i` is about to replace its object of this id. -/
def detach (s : QueueCluster P) (i messageId : String) (call : QueueCall P) : QueueCall P :=
  match call.op, call.object with
  | .publish message, none =>
    if call.node = i ∧ message.id = messageId then
      { call with object := some (s.current call message) }
    else call
  | _, _ => call

/-- `self.store.add(message)` in `publish`. -/
def store (cfg : QueueConfig) (s : QueueCluster P) (i : String) (message : QueueMessage P) :
    QueueCluster P :=
  { s with calls := s.calls.map (s.detach i message.id) }.setNode i
    { s.nodes i with store := (s.nodes i).store.add cfg.hash message }

/-- A call that has reached its loop of sends. -/
def startCall (cfg : QueueConfig) (s : QueueCluster P) (i : String) (op : QueueOp P)
    (object : Option (QueueMessage P)) (targets : List String) : QueueCluster P :=
  let call : QueueCall P := ⟨i, op, object, .sending s.packets.length targets⟩
  (s.addCall call).resume cfg s.calls.length call targets none

def publish (cfg : QueueConfig) (s : QueueCluster P) (i queueName : String) (payload : P)
    (messageId : String) (now : ℚ) : Option (QueueCluster P) :=
  ((s.nodes i).targetNodes cfg messageId).map fun targets =>
    let message : QueueMessage P :=
      { id := messageId, queueName := queueName, payload := payload, createdAt := now }
    if i ∈ targets then (s.store cfg i message).startCall cfg i (.publish message) none targets
    else s.startCall cfg i (.publish message) (some message) targets

def consume (cfg : QueueConfig) (s : QueueCluster P) (i queueName : String) (limit : ℤ) (now : ℚ) :
    Option (QueueCluster P) :=
  ((s.nodes i).consistentHash.getNode cfg.hash queueName).map fun responsible =>
    let op : QueueOp P := .consume queueName limit
    if responsible = some i then
      let (n, messages) := (s.nodes i).handleConsume now queueName limit
      (s.setNode i n).addCall ⟨i, op, none, .returned (.messages messages)⟩
    else
      match responsible with
      | some nodeId =>
        if nodeId ∈ cfg.nodes then
          let call : QueueCall P := ⟨i, op, none, .sending s.packets.length []⟩
          (s.addCall call).send s.calls.length call nodeId (.consume queueName limit) []
        else s.addCall ⟨i, op, none, .returned (.messages [])⟩
      | none => s.addCall ⟨i, op, none, .returned (.messages [])⟩

def ack (cfg : QueueConfig) (s : QueueCluster P) (i messageId : String) :
    Option (QueueCluster P) :=
  match (s.nodes i).store.get messageId with
  | none => some (s.addCall ⟨i, .ack messageId, none, .returned (.acked false)⟩)
  | some _ => ((s.nodes i).targetNodes cfg messageId).map fun targets =>
    if i ∈ targets then
      (s.setNode i ((s.nodes i).handleAck cfg messageId)).startCall cfg i (.ack messageId) none
        targets
    else s.startCall cfg i (.ack messageId) none targets

/-! ## Handlers -/

def handle (cfg : QueueConfig) (s : QueueCluster P) (j : ℕ) (p : Packet P) (now : ℚ) :
    QueueCluster P :=
  let n := s.nodes p.dst
  let (n', response) := match p.request with
    | .publish message => (n.handlePublish cfg message, none)
    | .consume queueName limit =>
      let (n', messages) := n.handleConsume now queueName limit
      (n', some messages)
    | .ack messageId => (n.handleAck cfg messageId, none)
  { s.setNode p.dst n' with packets := s.packets.set j { p with stage := .handled response } }

/-! ## Steps and runs -/

def step (cfg : QueueConfig) (s : QueueCluster P) : QueueAction P → Option (QueueCluster P)
  | .membership i event =>
    if i ∈ cfg.nodes then
      ((s.nodes i).membership.step cfg.hash event).map fun m =>
        s.setNode i { s.nodes i with membership := m }
    else none
  | .publish i queueName payload messageId now =>
    if i ∈ cfg.nodes then s.publish cfg i queueName payload messageId now else none
  | .consume i queueName limit now =>
    if i ∈ cfg.nodes then s.consume cfg i queueName limit now else none
  | .ack i messageId => if i ∈ cfg.nodes then s.ack cfg i messageId else none
  | .redeliver i messageId now =>
    if i ∈ cfg.nodes then some (s.setNode i ((s.nodes i).redeliver cfg now messageId)) else none
  | .deliver j now =>
    match s.packets[j]? with
    | some p => match p.stage with
      | .inFlight => some (s.handle cfg j p now)
      | _ => none
    | none => none
  | .reply k =>
    match s.calls[k]? with
    | some call => match call.stage with
      | .sending j rest => match (s.packets[j]?).map Packet.stage with
        | some (.handled response) => some (s.resume cfg k call rest response)
        | _ => none
      | _ => none
    | none => none
  | .noReply k =>
    match s.calls[k]? with
    | some call => match call.stage with
      | .sending _ rest => some (s.resume cfg k call rest none)
      | _ => none
    | none => none

def run (cfg : QueueConfig) (s : QueueCluster P) (acts : List (QueueAction P)) :
    Option (QueueCluster P) :=
  Transition.run (step cfg) s acts

/-- `P` holds at every step of a run. -/
abbrev EachStep (cfg : QueueConfig) (C : QueueCluster P → QueueAction P → Prop)
    (s : QueueCluster P) (acts : List (QueueAction P)) : Prop :=
  Transition.EachStep (step cfg) C s acts

end QueueCluster

end Pynchronize
