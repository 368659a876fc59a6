import Pynchronize.Lock.Replica
import Pynchronize.Raft.Trace

/-!
# A cluster of LockManagers

`acquire_lock`, `release_lock` and their forwarding to the leader, on top of
the cluster of RaftNodes. The state adds to it, for each node, the lock table
and the registered futures, and every call ever started. One action runs one
coroutine from an `await` to the next; every action comes with the clock
reading and the walking order of the process that takes it. A call on one node
and the call that its LOCK_REQUEST starts on another are two calls.
-/

namespace Pynchronize

open Lib

/-- The clock reading of a queued request, and the call it comes from. -/
structure Stamp where
  time : ℚ
  call : ℕ
  deriving DecidableEq

/-- `requestId` is the text of client, resource and clock reading; other arguments may give the
    same text. -/
structure LockConfig (N C R Rid : Type*) extends Config N where
  requestId : C → R → ℚ → Rid

/-- `pendingRequests` names a future by the call that waits for it. -/
structure LockManager (C R Rid : Type*) where
  replica : Replica C R Stamp
  pendingRequests : Dict Rid ℕ
  timers : Dict Rid ℚ

inductive LockOp
  | acquire (lockType : LockType)
  | release
  deriving DecidableEq

/-- A LOCK_REQUEST or LOCK_RELEASE: under way, taken by the handler that runs the call `child`,
    or lost. -/
inductive Delivery
  | inFlight
  | handled (child : ℕ)
  | lost
  deriving DecidableEq

/-- Where a call is suspended: in `raft.propose`, which runs as a task of the cluster, in
    `wait_for`, or in `_forward_to_leader`; or how it ended. -/
inductive CallStage
  | proposing (task : ℕ)
  | waiting
  | forwarding
  | returned (status : LockStatus)
  | raised
  | crashed
  deriving DecidableEq

/-- What a call is about from its start on; `requestId` and `index` are those of the command it
    proposes itself. -/
structure CallArgs (N C R Rid : Type*) where
  node : N
  op : LockOp
  clientId : C
  resourceId : R
  requestId : Option Rid
  index : Option ℕ
  deriving DecidableEq

structure Call (N C R Rid : Type*) where
  args : CallArgs N C R Rid
  stage : CallStage
  future : Option LockStatus
  message : Option (N × Delivery)

structure LockCluster (N C R Rid : Type*) where
  raft : Cluster N (Proposal C R Rid)
  managers : N → LockManager C R Rid
  calls : List (Call N C R Rid)

inductive LockAction (N C R Rid : Type*)
  /-- A step of the cluster other than `propose`, which is called by the calls. -/
  | raft (a : Action N (Proposal C R Rid))
  | acquireLock (i : N) (clientId : C) (resourceId : R) (lockType : LockType)
  | releaseLock (i : N) (clientId : C) (resourceId : R)
  | proposed (k : ℕ)
  | proposeRaises (k : ℕ)
  | wake (k : ℕ)
  /-- The timer of `wait_for` fires; it may do so after the future is done, before the call is
      resumed. -/
  | timeout (k : ℕ)
  | deliver (k : ℕ)
  | lose (k : ℕ)
  | response (k : ℕ)
  | noResponse (k : ℕ)

variable {N C R Rid : Type*}

def Command.requestId : Command C R Rid → Option Rid
  | .acquire _ _ _ requestId => requestId
  | _ => none

/-- The command that a call proposes. -/
def CallArgs.command (args : CallArgs N C R Rid) : Command C R Rid :=
  match args.op with
  | .acquire lockType => .acquire args.clientId args.resourceId lockType args.requestId
  | .release => .release args.clientId args.resourceId

namespace Call

/-- `if not future.done(): future.set_result(status)`. -/
def setResult (status : LockStatus) (call : Call N C R Rid) : Call N C R Rid :=
  match call.future with
  | none => { call with future := some status }
  | some _ => call

/-- What has become of the message of the call. -/
def setDelivery (delivery : Delivery) (call : Call N C R Rid) : Call N C R Rid :=
  { call with message := call.message.map fun message => (message.1, delivery) }

/-- The process of the call dies; a message it sent stays under way. -/
def crash (call : Call N C R Rid) : Call N C R Rid :=
  match call.stage with
  | .returned _ => call
  | .raised => call
  | _ => { call with stage := .crashed }

end Call

/-- `command_handler` of a LockManager does not raise, and only calls propose. -/
def Action.driven : Action N C → Bool
  | .propose .. => false
  | .raise _ => false
  | .raiseHandler _ => false
  | _ => true

def LockManager.init : LockManager C R Rid := ⟨Replica.init, Dict.empty, Dict.empty⟩

namespace LockCluster

def boot (start : N → ℚ) : LockCluster N C R Rid :=
  ⟨Cluster.boot start, fun _ => LockManager.init, []⟩

def setCall (s : LockCluster N C R Rid) (k : ℕ) (call : Call N C R Rid) : LockCluster N C R Rid :=
  { s with calls := s.calls.set k call }

def setStage (s : LockCluster N C R Rid) (k : ℕ) (call : Call N C R Rid) (stage : CallStage) :
    LockCluster N C R Rid :=
  s.setCall k { call with stage := stage }

def setDelivery (s : LockCluster N C R Rid) (k : ℕ) (delivery : Delivery) : LockCluster N C R Rid :=
  { s with calls := s.calls.modify k (Call.setDelivery delivery) }

def addCall (s : LockCluster N C R Rid) (call : Call N C R Rid) : LockCluster N C R Rid :=
  { s with calls := s.calls ++ [call] }

variable [DecidableEq N] [DecidableEq C] [DecidableEq R] [DecidableEq Rid]

def setManager (s : LockCluster N C R Rid) (i : N) (m : LockManager C R Rid) :
    LockCluster N C R Rid :=
  { s with managers := Function.update s.managers i m }

/-! ## The callbacks of the RaftNode -/

/-- `set_result` on the futures of some calls. -/
def setResults (calls : List (Call N C R Rid)) (which : ℕ → Bool) (status : LockStatus) :
    List (Call N C R Rid) :=
  calls.mapIdx fun k call => if which k then call.setResult status else call

/-- The future registered under a request id is popped and resolved. -/
def resolve (s : LockCluster N C R Rid) (i : N) (requestId : Rid) (status : LockStatus) :
    LockCluster N C R Rid :=
  let m := s.managers i
  match m.pendingRequests.get? requestId with
  | some k =>
    { s.setManager i { m with pendingRequests := m.pendingRequests.erase requestId } with
      calls := setResults s.calls (· = k) status }
  | none => s

/-- `_apply_command` on node `i`. -/
def applyProposal (env : Env C ℚ) (i : N) (s : LockCluster N C R Rid) (p : Proposal C R Rid) :
    LockCluster N C R Rid :=
  let m := s.managers i
  let (replica, status) := m.replica.apply ⟨env.order, ⟨env.now, p.call⟩⟩ p
  let s := s.setManager i { m with replica := replica }
  match p.command.requestId, status with
  | some requestId, some .acquired => s.resolve i requestId .acquired
  | some requestId, some .deadlock => s.resolve i requestId .deadlock
  | _, _ => s

/-- `_on_lose_leadership` on node `i`. -/
def onLoseLeadership (s : LockCluster N C R Rid) (i : N) : LockCluster N C R Rid :=
  let m := s.managers i
  { s.setManager i { m with pendingRequests := Dict.empty } with
    calls := setResults s.calls (· ∈ m.pendingRequests.items.map Prod.snd) .denied }

/-- The call of `on_lose_leadership` in `_step_down`. -/
def stepDownCallback (i : N) (n n' : RaftNode N (Proposal C R Rid)) (s : LockCluster N C R Rid) :
    LockCluster N C R Rid :=
  if n.state = .leader ∧ n'.state ≠ .leader then s.onLoseLeadership i else s

/-- What the RaftNode of node `i` calls on its way from `n` to `n'`. -/
def callbacks (env : Env C ℚ) (i : N) (n n' : RaftNode N (Proposal C R Rid))
    (s : LockCluster N C R Rid) : LockCluster N C R Rid :=
  ((n'.applied.drop n.applied.length).map Prod.snd).foldl (applyProposal env i)
    (s.stepDownCallback i n n')

/-- Node `i` comes back after a crash: an empty lock table, and no call goes on. -/
def restart (s : LockCluster N C R Rid) (i : N) : LockCluster N C R Rid :=
  { s.setManager i LockManager.init with
    calls := s.calls.map fun call : Call N C R Rid =>
      if call.args.node = i then call.crash else call }

/-- A step of the cluster, with the callbacks that it makes. -/
def raftStep (cfg : Config N) (s : LockCluster N C R Rid) (env : Env C ℚ)
    (a : Action N (Proposal C R Rid)) : Option (LockCluster N C R Rid) :=
  match s.raft.actor a, s.raft.step cfg a with
  | some i, some raft =>
    if a.crashFree then
      some ({ s with raft := raft }.callbacks env i (s.raft.nodes i) (raft.nodes i))
    else some ({ s with raft := raft }.restart i)
  | _, _ => none

/-! ## Calls -/

def proposalArgs (cfg : LockConfig N C R Rid) (s : LockCluster N C R Rid) (env : Env C ℚ) (i : N)
    (op : LockOp) (clientId : C) (resourceId : R) : CallArgs N C R Rid where
  node := i
  op := op
  clientId := clientId
  resourceId := resourceId
  requestId := match op with
    | .acquire _ => some (cfg.requestId clientId resourceId env.now)
    | .release => none
  index := some ((s.raft.nodes i).persistent.log.length + 1)

/-- A call that is about to propose, with its future and its timer. -/
def proposing (s : LockCluster N C R Rid) (env : Env C ℚ) (args : CallArgs N C R Rid) :
    LockCluster N C R Rid :=
  let m := s.managers args.node
  let s' := match args.requestId with
    | some requestId =>
      s.setManager args.node
        { m with
          pendingRequests := m.pendingRequests.set requestId s.calls.length
          timers := m.timers.set requestId env.now }
    | none => s
  s'.addCall ⟨args, .proposing s.raft.tasks.length, none, none⟩

/-- `acquire_lock` and `release_lock` up to their first `await`. -/
def startCall (cfg : LockConfig N C R Rid) (s : LockCluster N C R Rid) (env : Env C ℚ) (i : N)
    (op : LockOp) (clientId : C) (resourceId : R) : Option (LockCluster N C R Rid) :=
  if i ∈ cfg.nodes then
    if (s.raft.nodes i).state = .leader then
      let args := s.proposalArgs cfg env i op clientId resourceId
      (s.proposing env args).raftStep cfg.toConfig env (.propose i ⟨s.calls.length, args.command⟩)
    else
      let args := ⟨i, op, clientId, resourceId, none, none⟩
      match (s.raft.nodes i).currentLeader with
      | some leader =>
        -- `_forward_to_leader`
        if leader ∈ cfg.nodes then
          some (s.addCall ⟨args, .forwarding, none, some (leader, .inFlight)⟩)
        else some (s.addCall ⟨args, .returned .denied, none, none⟩)
      | none => some (s.addCall ⟨args, .returned .denied, none, none⟩)
  else none

def acquireLock (cfg : LockConfig N C R Rid) (s : LockCluster N C R Rid) (env : Env C ℚ) (i : N)
    (clientId : C) (resourceId : R) (lockType : LockType) : Option (LockCluster N C R Rid) :=
  s.startCall cfg env i (.acquire lockType) clientId resourceId

def releaseLock (cfg : LockConfig N C R Rid) (s : LockCluster N C R Rid) (env : Env C ℚ) (i : N)
    (clientId : C) (resourceId : R) : Option (LockCluster N C R Rid) :=
  s.startCall cfg env i .release clientId resourceId

/-- `wait_for` has a result. -/
def finish (s : LockCluster N C R Rid) (k : ℕ) (call : Call N C R Rid) (result : LockStatus) :
    LockCluster N C R Rid :=
  let m := s.managers call.args.node
  let s := match call.args.requestId with
    | some requestId => s.setManager call.args.node { m with timers := m.timers.erase requestId }
    | none => s
  s.setStage k call (.returned result)

/-- `propose` has returned True; it returns False only to a node that does not lead when it
    starts, and then it was not called. -/
def proposed (s : LockCluster N C R Rid) (k : ℕ) (call : Call N C R Rid) :
    LockCluster N C R Rid :=
  match call.args.op with
  | .release => s.setStage k call (.returned .released)
  | .acquire _ =>
    match call.future with
    | some result => s.finish k call result
    | none => s.setStage k call .waiting

def timeout (s : LockCluster N C R Rid) (k : ℕ) (call : Call N C R Rid) : LockCluster N C R Rid :=
  let m := s.managers call.args.node
  let s := match call.args.requestId with
    | some requestId =>
      s.setManager call.args.node { m with pendingRequests := m.pendingRequests.erase requestId }
    | none => s
  s.setStage k call (.returned .timeout)

/-- `_handle_lock_request` and `_handle_lock_release` up to the call they make. -/
def deliver (cfg : LockConfig N C R Rid) (s : LockCluster N C R Rid) (env : Env C ℚ) (k : ℕ)
    (args : CallArgs N C R Rid) (target : N) : Option (LockCluster N C R Rid) :=
  (s.startCall cfg env target args.op args.clientId args.resourceId).map fun s' =>
    s'.setDelivery k (.handled s.calls.length)

/-! ## Steps and runs -/

def step (cfg : LockConfig N C R Rid) (s : LockCluster N C R Rid)
    (x : Env C ℚ × LockAction N C R Rid) : Option (LockCluster N C R Rid) :=
  match x.2 with
  | .raft a => if a.driven then s.raftStep cfg.toConfig x.1 a else none
  | .acquireLock i clientId resourceId lockType =>
    s.acquireLock cfg x.1 i clientId resourceId lockType
  | .releaseLock i clientId resourceId => s.releaseLock cfg x.1 i clientId resourceId
  | .proposed k =>
    match s.calls[k]? with
    | some call => match call.stage with
      | .proposing task => match s.raft.tasks[task]? with
        | some ⟨_, _, .returned⟩ => some (s.proposed k call)
        | _ => none
      | _ => none
    | none => none
  | .proposeRaises k =>
    match s.calls[k]? with
    | some call => match call.stage with
      | .proposing task => match s.raft.tasks[task]? with
        | some ⟨_, _, .raised⟩ => some (s.setStage k call .raised)
        | _ => none
      | _ => none
    | none => none
  | .wake k =>
    match s.calls[k]? with
    | some call => match call.stage, call.future with
      | .waiting, some result => some (s.finish k call result)
      | _, _ => none
    | none => none
  | .timeout k =>
    match s.calls[k]? with
    | some call => if call.stage = .waiting then some (s.timeout k call) else none
    | none => none
  | .deliver k =>
    match s.calls[k]? with
    | some call => match call.message with
      | some (target, .inFlight) => s.deliver cfg x.1 k call.args target
      | _ => none
    | none => none
  | .lose k =>
    match s.calls[k]? with
    | some call => match call.message with
      | some (_, .inFlight) => some (s.setDelivery k .lost)
      | _ => none
    | none => none
  | .response k =>
    match s.calls[k]? with
    | some call => match call.stage, call.message with
      | .forwarding, some (_, .handled child) => match (s.calls[child]?).map Call.stage with
        | some (.returned status) => some (s.setStage k call (.returned status))
        | _ => none
      | _, _ => none
    | none => none
  | .noResponse k =>
    match s.calls[k]? with
    | some call =>
      if call.stage = .forwarding then some (s.setStage k call (.returned .denied)) else none
    | none => none

def run (cfg : LockConfig N C R Rid) (s : LockCluster N C R Rid)
    (xs : List (Env C ℚ × LockAction N C R Rid)) : Option (LockCluster N C R Rid) :=
  Transition.run (step cfg) s xs

/-- `P` holds at every step of a run. -/
abbrev EachStep (cfg : LockConfig N C R Rid)
    (P : LockCluster N C R Rid → Env C ℚ × LockAction N C R Rid → Prop)
    (s : LockCluster N C R Rid) (xs : List (Env C ℚ × LockAction N C R Rid)) : Prop :=
  Transition.EachStep (step cfg) P s xs

end LockCluster

end Pynchronize
