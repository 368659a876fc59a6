import Mathlib.Logic.Function.Basic
import Pynchronize.Lib.Transition
import Pynchronize.Cache.Node

/-!
# A cluster of CacheNodes

The nodes, every request ever sent and every call of `read` and `write` ever
started. One action runs one coroutine from an `await` to the next. A `read`
asks the other nodes one after the other, a `write` sends to all of them at once
and goes on when every one of these sends has ended. A send ends with the answer,
or without one (`noReply`, `giveUp`), and then its request may still be delivered.
No CacheNode sends a CACHE_WRITE.
-/

namespace Pynchronize

open Lib

structure CacheConfig where
  nodes : List String
  maxSize : String → ℕ

/-- `self.config.cluster.get_other_nodes(node_id)`. -/
def CacheConfig.otherNodes (cfg : CacheConfig) (nodeId : String) : List String :=
  cfg.nodes.filter (· ≠ nodeId)

inductive CacheRequest
  | read (key : String)
  | invalidate (key : String) (version : ℕ)
  deriving DecidableEq

/-- Under way, or handled, with what a CACHE_READ has found. -/
inductive CachePacketStage (V : Type*)
  | inFlight
  | handled (response : Option (Fetched V))
  deriving DecidableEq

/-- A request of the call `call`. -/
structure CachePacket (V : Type*) where
  call : ℕ
  dst : String
  request : CacheRequest
  stage : CachePacketStage V
  deriving DecidableEq

inductive CacheOp (V : Type*)
  | read (key : String)
  | write (key : String) (value : V)
  deriving DecidableEq

def CacheOp.key {V : Type*} : CacheOp V → String
  | .read key => key
  | .write key _ => key

inductive CacheResult (V : Type*)
  | read (value : Option V)
  | written
  deriving DecidableEq

/-- A `read` waits for one request with the nodes still to ask, a `write` for all of its sends that
    have not been given up. -/
inductive CacheStage (V : Type*)
  | reading (packet : ℕ) (rest : List String)
  | writing (packets : List ℕ)
  | returned (result : CacheResult V)
  deriving DecidableEq

def CacheStage.isReturned {V : Type*} : CacheStage V → Bool
  | .returned _ => true
  | _ => false

structure CacheCall (V : Type*) where
  node : String
  op : CacheOp V
  stage : CacheStage V
  deriving DecidableEq

structure CacheCluster (V : Type*) where
  nodes : String → CacheNode V
  packets : List (CachePacket V)
  calls : List (CacheCall V)

inductive CacheAction (V : Type*)
  | read (i key : String)
  | write (i key : String) (value : V)
  | invalidate (i key : String)
  | deliver (packet : ℕ)
  | reply (call : ℕ)
  | noReply (call : ℕ)
  | giveUp (call packet : ℕ)
  | finish (call : ℕ)

namespace CacheCluster

variable {V : Type*}

def boot (cfg : CacheConfig) : CacheCluster V where
  nodes i := CacheNode.boot (cfg.maxSize i)
  packets := []
  calls := []

/-! ## Single changes -/

def setNode (s : CacheCluster V) (i : String) (n : CacheNode V) : CacheCluster V :=
  { s with nodes := Function.update s.nodes i n }

def setStage (s : CacheCluster V) (k : ℕ) (call : CacheCall V) (stage : CacheStage V) :
    CacheCluster V :=
  { s with calls := s.calls.set k { call with stage := stage } }

def addCall (s : CacheCluster V) (call : CacheCall V) : CacheCluster V :=
  { s with calls := s.calls ++ [call] }

def addPackets (s : CacheCluster V) (packets : List (CachePacket V)) : CacheCluster V :=
  { s with packets := s.packets ++ packets }

/-! ## read -/

/-- What a `read` does next after a miss on its own node and on the nodes asked so far. -/
def ask (s : CacheCluster V) : List String → CacheStage V
  | [] => .returned (.read none)
  | _ :: rest => .reading s.packets.length rest

/-- The request that goes with it. -/
def asked (k : ℕ) (key : String) : List String → List (CachePacket V)
  | [] => []
  | node :: _ => [⟨k, node, .read key, .inFlight⟩]

def startRead (cfg : CacheConfig) (s : CacheCluster V) (i key : String) : CacheCluster V :=
  let s' := s.setNode i ((s.nodes i).touch key)
  let hit := ((s.nodes i).entry key).filter fun entry => entry.state ≠ .invalid
  match hit with
  | some entry => s'.addCall ⟨i, .read key, .returned (.read (some entry.value))⟩
  | none =>
    (s'.addCall ⟨i, .read key, s.ask (cfg.otherNodes i)⟩).addPackets
      (asked s.calls.length key (cfg.otherNodes i))

/-- `transport.send` returns in a `read`. -/
def resumeRead (s : CacheCluster V) (k : ℕ) (call : CacheCall V) (key : String)
    (rest : List String) : Option (Fetched V) → CacheCluster V
  | some response =>
    (s.setNode call.node ((s.nodes call.node).fetch key response)).setStage k call
      (.returned (.read (some response.value)))
  | none => (s.setStage k call (s.ask rest)).addPackets (asked k key rest)

/-! ## write -/

/-- Up to the `await` in `_broadcast_invalidate`. -/
def startWrite (cfg : CacheConfig) (s : CacheCluster V) (i key : String) (value : V) :
    CacheCluster V :=
  let others := cfg.otherNodes i
  let request := .invalidate key ((s.nodes i).version key)
  let tasks := List.range' s.packets.length others.length
  ((s.setNode i ((s.nodes i).touch key)).addCall ⟨i, .write key value, .writing tasks⟩).addPackets
    (others.map fun node => ⟨s.calls.length, node, request, .inFlight⟩)

def finishWrite (s : CacheCluster V) (k : ℕ) (call : CacheCall V) (key : String) (value : V) :
    CacheCluster V :=
  (s.setNode call.node ((s.nodes call.node).store key value)).setStage k call (.returned .written)

/-! ## Handlers -/

def handle (s : CacheCluster V) (j : ℕ) (p : CachePacket V) : CacheCluster V :=
  let n := s.nodes p.dst
  let (n', response) := match p.request with
    | .read key => n.handleCacheRead key
    | .invalidate key version => (n.handleCacheInvalidate key version, none)
  { s.setNode p.dst n' with packets := s.packets.set j { p with stage := .handled response } }

/-! ## Steps and runs -/

/-- The request has been answered. -/
def isHandled (s : CacheCluster V) (j : ℕ) : Bool :=
  match (s.packets[j]?).map CachePacket.stage with
  | some (.handled _) => true
  | _ => false

def step (cfg : CacheConfig) (s : CacheCluster V) : CacheAction V → Option (CacheCluster V)
  | .read i key => if i ∈ cfg.nodes then some (s.startRead cfg i key) else none
  | .write i key value => if i ∈ cfg.nodes then some (s.startWrite cfg i key value) else none
  | .invalidate i key =>
    if i ∈ cfg.nodes then some (s.setNode i ((s.nodes i).invalidate key)) else none
  | .deliver j =>
    match s.packets[j]? with
    | some p => match p.stage with
      | .inFlight => some (s.handle j p)
      | .handled _ => none
    | none => none
  | .reply k =>
    match s.calls[k]? with
    | some call => match call.op, call.stage with
      | .read key, .reading j rest => match (s.packets[j]?).map CachePacket.stage with
        | some (.handled response) => some (s.resumeRead k call key rest response)
        | _ => none
      | _, _ => none
    | none => none
  | .noReply k =>
    match s.calls[k]? with
    | some call => match call.op, call.stage with
      | .read key, .reading _ rest => some (s.resumeRead k call key rest none)
      | _, _ => none
    | none => none
  | .giveUp k j =>
    match s.calls[k]? with
    | some call => match call.stage with
      | .writing tasks =>
        if j ∈ tasks then some (s.setStage k call (.writing (tasks.erase j))) else none
      | _ => none
    | none => none
  | .finish k =>
    match s.calls[k]? with
    | some call => match call.op, call.stage with
      | .write key value, .writing tasks =>
        if tasks.all s.isHandled then some (s.finishWrite k call key value) else none
      | _, _ => none
    | none => none

def run (cfg : CacheConfig) (s : CacheCluster V) (acts : List (CacheAction V)) :
    Option (CacheCluster V) :=
  Transition.run (step cfg) s acts

/-- `P` holds at every step of a run. -/
abbrev EachStep (cfg : CacheConfig) (C : CacheCluster V → CacheAction V → Prop)
    (s : CacheCluster V) (acts : List (CacheAction V)) : Prop :=
  Transition.EachStep (step cfg) C s acts

end CacheCluster

end Pynchronize
