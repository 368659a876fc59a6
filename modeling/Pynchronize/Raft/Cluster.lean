import Mathlib.Logic.Function.Basic
import Pynchronize.Lib.Transition
import Pynchronize.Raft.Node

/-!
# A cluster of RaftNodes

The nodes, every RPC ever sent with the state of its handler, and the
coroutines that run `_send_append_entries`. One action runs one coroutine from
an `await` to the next. A message is lost when it is never delivered, a reply
when `noReply` wakes the sender, and both may be late.
-/

namespace Pynchronize

open Lib

/-- The handler of an RPC: not called yet, suspended in `_step_down`, suspended in
    `command_handler`, finished with an answer, or gone without one. -/
inductive Stage (N : Type*)
  | inFlight
  | steppingDown
  | applying
  | answered (response : Message N Response)
  | lost

structure Rpc (N C : Type*) where
  src : N
  dst : N
  message : Message N (Request N C)
  stage : Stage N

inductive TaskKind
  | propose
  | heartbeat
  deriving DecidableEq

/-- Where a coroutine is suspended: at the head of `_leader_heartbeat_loop`, in `transport.send`
    with the RPC it sent and the nodes still to visit, in `_step_down`, or in `command_handler`. -/
inductive Pc (N C : Type*)
  | looping
  | sending (o : RaftNode.Outgoing N C) (rpc : ℕ) (rest : List N)
  | steppingDown (rest : List N)
  | applying
  | returned
  | raised
  | cancelled

structure Task (N C : Type*) where
  node : N
  kind : TaskKind
  pc : Pc N C

structure Cluster (N C : Type*) where
  nodes : N → RaftNode N C
  rpcs : List (Rpc N C)
  tasks : List (Task N C)

inductive Action (N C : Type*)
  | electionTimeout (i : N) (timeout now : ℚ)
  /-- `broadcast` returns, with the answers of the nodes in `received`. -/
  | electionEnds (i : N) (received : List N)
  | becameLeader (i : N)
  | propose (i : N) (command : C)
  | heartbeat (task : ℕ)
  | reply (task : ℕ)
  | noReply (task : ℕ)
  | resume (task : ℕ)
  | raise (task : ℕ)
  | deliver (rpc : ℕ) (now : ℚ)
  | resumeHandler (rpc : ℕ) (now : ℚ)
  | raiseHandler (rpc : ℕ)
  | crash (i : N) (now : ℚ)
  /-- A crash inside `_save_state`, after `open(..., "w")` has truncated the file. -/
  | crashSaving (i : N) (now : ℚ)

namespace Cluster

variable {N C : Type*} [DecidableEq N]

def boot (start : N → ℚ) : Cluster N C := ⟨fun i => RaftNode.boot none (start i), [], []⟩

/-! ## Single changes -/

def setNode (s : Cluster N C) (i : N) (n : RaftNode N C) : Cluster N C :=
  { s with nodes := Function.update s.nodes i n }

def setStage (s : Cluster N C) (j : ℕ) (r : Rpc N C) (stage : Stage N) : Cluster N C :=
  { s with rpcs := s.rpcs.set j { r with stage := stage } }

def setPc (s : Cluster N C) (k : ℕ) (t : Task N C) (pc : Pc N C) : Cluster N C :=
  { s with tasks := s.tasks.set k { t with pc := pc } }

/-- A request handed to `transport.send`. -/
def post (s : Cluster N C) (src dst : N) (message : Message N (Request N C)) : Cluster N C :=
  { s with rpcs := s.rpcs ++ [⟨src, dst, message, .inFlight⟩] }

def spawn (s : Cluster N C) (t : Task N C) : Cluster N C := { s with tasks := s.tasks ++ [t] }

def answerOf (s : Cluster N C) (j : ℕ) : Option (Message N Response) :=
  match s.rpcs[j]? with
  | some r => match r.stage with
    | .answered response => some response
    | _ => none
  | none => none

/-! ## `_send_append_entries` -/

/-- The coroutine after `_send_append_entries`: `propose` returns, the heartbeat loop sleeps. -/
def afterSend (kind : TaskKind) : Pc N C :=
  match kind with
  | .propose => .returned
  | .heartbeat => .looping

/-- A node after `_apply_committed` ran, and the coroutine in it: suspended or done. -/
def applied (s : Cluster N C) (k : ℕ) (t : Task N C) (result : RaftNode N C × Bool) :
    Cluster N C :=
  (s.setNode t.node result.1).setPc k t (if result.2 then .applying else afterSend t.kind)

/-- The loop over the nodes from its head on, up to the next `send` or through `_try_commit`. -/
def sendNext (cfg : Config N) (s : Cluster N C) (k : ℕ) (t : Task N C) : List N → Cluster N C
  | [] => s.applied k t ((s.nodes t.node).tryCommit cfg)
  | nodeId :: rest =>
    match (s.nodes t.node).leaderState with
    | none => s.setPc k t .raised
    | some ls =>
      let o := (s.nodes t.node).outgoing ls nodeId
      (s.post t.node nodeId ((s.nodes t.node).appendEntriesMessage t.node o)).setPc k t
        (.sending o s.rpcs.length rest)

def sendAppendEntries (cfg : Config N) (s : Cluster N C) (k : ℕ) (t : Task N C) : Cluster N C :=
  if (s.nodes t.node).state ≠ .leader ∨ (s.nodes t.node).leaderState.isNone then
    s.setPc k t (afterSend t.kind)
  else s.sendNext cfg k t (cfg.getOtherNodes t.node)

/-- `transport.send` returns in the middle of the loop. -/
def sendReturns (cfg : Config N) (s : Cluster N C) (k : ℕ) (t : Task N C)
    (o : RaftNode.Outgoing N C) (rest : List N) (response : Option (Message N Response)) :
    Cluster N C :=
  match (s.nodes t.node).handleResponse o response with
  | none => s.setPc k t .raised
  | some (n, true) => (s.setNode t.node n).setPc k t (.steppingDown rest)
  | some (n, false) => (s.setNode t.node n).sendNext cfg k t rest

/-! ## Handlers -/

/-- The handler of RPC `j` after its term check. -/
def handle (s : Cluster N C) (j : ℕ) (r : Rpc N C) (now : ℚ) : Cluster N C :=
  match r.message.payload with
  | .requestVote candidateId lastLogIndex lastLogTerm =>
    let result := (s.nodes r.dst).handleRequestVote r.dst now r.message.term candidateId
      lastLogIndex lastLogTerm
    (s.setNode r.dst result.1).setStage j r (.answered result.2)
  | .appendEntries leaderId prevLogIndex prevLogTerm entries leaderCommit =>
    let result := (s.nodes r.dst).handleAppendEntries r.dst now r.message.term leaderId
      prevLogIndex prevLogTerm entries leaderCommit
    (s.setNode r.dst result.1).setStage j r
      (match result.2 with
        | some response => .answered response
        | none => .applying)

def deliver (s : Cluster N C) (j : ℕ) (r : Rpc N C) (now : ℚ) : Cluster N C :=
  if r.message.term > (s.nodes r.dst).persistent.currentTerm then
    (s.setNode r.dst ((s.nodes r.dst).stepDown r.message.term)).setStage j r .steppingDown
  else s.handle j r now

/-- `command_handler` returns in the handler of an AppendEntries. -/
def handlerApplied (s : Cluster N C) (j : ℕ) (r : Rpc N C) : Cluster N C :=
  let result := (s.nodes r.dst).applyCommitted
  (s.setNode r.dst result.1).setStage j r
    (if result.2 then .applying else .answered (result.1.appendEntriesResponse r.dst true))

/-! ## Elections -/

def broadcastRequestVote (cfg : Config N) (s : Cluster N C) (i : N) : Cluster N C :=
  let others := cfg.getOtherNodes i
  let message := (s.nodes i).requestVoteMessage i
  let sent : List (Rpc N C) := others.map fun target => ⟨i, target, message, .inFlight⟩
  { s with rpcs := s.rpcs ++ sent }.setNode i
    { s.nodes i with electionTask := .broadcasting (others.zipIdx s.rpcs.length) }

/-- What `broadcast` returned, if the answers of `received` arrived. -/
def responses (s : Cluster N C) (sends : List (N × ℕ)) (received : List N) :
    List (N × Option (Message N Response)) :=
  sends.map fun send => (send.1, if send.1 ∈ received then s.answerOf send.2 else none)

def countVotes (cfg : Config N) (s : Cluster N C) (i : N) (n : RaftNode N C) : Cluster N C :=
  if cfg.getMajority ≤ n.votesReceived.keys.length ∧ n.state = .candidate then
    s.setNode i { n.becomeLeader cfg i with electionTask := .becomingLeader }
  else s.setNode i { n with electionTask := .sleeping }

def cancelTask (t : Task N C) : Task N C :=
  match t.pc with
  | .returned => t
  | .raised => t
  | _ => { t with pc := .cancelled }

/-- The rest of `_become_leader`. -/
def startHeartbeat (s : Cluster N C) (i : N) : Cluster N C :=
  let tasks := match (s.nodes i).heartbeatTask with
    | some k => s.tasks.modify k cancelTask
    | none => s.tasks
  ({ s with tasks := tasks }.spawn ⟨i, .heartbeat, .looping⟩).setNode i
    { s.nodes i with electionTask := .sleeping, heartbeatTask := some s.tasks.length }

/-! ## Crashes -/

def dropHandler (i : N) (r : Rpc N C) : Rpc N C :=
  match r.stage with
  | .steppingDown => if r.dst = i then { r with stage := .lost } else r
  | .applying => if r.dst = i then { r with stage := .lost } else r
  | _ => r

/-- Node `i` starts again over the given file; its coroutines and handlers are gone. -/
def restart (s : Cluster N C) (i : N) (stateFile : Option (PersistentState N C)) (now : ℚ) :
    Cluster N C :=
  { s with
    rpcs := s.rpcs.map (dropHandler i)
    tasks := s.tasks.map fun t : Task N C => if t.node = i then cancelTask t else t }.setNode i
    (RaftNode.boot stateFile now)

/-! ## Steps and runs -/

def step (cfg : Config N) (s : Cluster N C) : Action N C → Option (Cluster N C)
  | .electionTimeout i timeout now =>
    let n := s.nodes i
    match n.electionTask with
    | .sleeping =>
      if i ∈ cfg.nodes ∧ n.state ≠ .leader ∧ now - n.lastHeartbeat ≥ timeout ∧
          (cfg.electionTimeoutMin : ℚ) / 1000 ≤ timeout ∧
          timeout ≤ (cfg.electionTimeoutMax : ℚ) / 1000 then
        some ((s.setNode i (n.startElection i)).broadcastRequestVote cfg i)
      else none
    | _ => none
  | .electionEnds i received =>
    match (s.nodes i).electionTask with
    | .broadcasting sends =>
      if i ∈ cfg.nodes then
        some (s.countVotes cfg i
          ((s.responses sends received).foldl RaftNode.collectVote (s.nodes i)))
      else none
    | _ => none
  | .becameLeader i =>
    match (s.nodes i).electionTask with
    | .becomingLeader => if i ∈ cfg.nodes then some (s.startHeartbeat i) else none
    | _ => none
  | .propose i command =>
    if i ∈ cfg.nodes ∧ (s.nodes i).state = .leader then
      let t : Task N C := ⟨i, .propose, .looping⟩
      some (((s.setNode i ((s.nodes i).appendCommand command)).spawn t).sendAppendEntries cfg
        s.tasks.length t)
    else none
  | .heartbeat k =>
    match s.tasks[k]? with
    | some ⟨i, .heartbeat, .looping⟩ =>
      if (s.nodes i).state = .leader then
        some (s.sendAppendEntries cfg k ⟨i, .heartbeat, .looping⟩)
      else some (s.setPc k ⟨i, .heartbeat, .looping⟩ .returned)
    | _ => none
  | .reply k =>
    match s.tasks[k]? with
    | some ⟨i, kind, .sending o j rest⟩ =>
      (s.answerOf j).map fun response =>
        s.sendReturns cfg k ⟨i, kind, .sending o j rest⟩ o rest (some response)
    | _ => none
  | .noReply k =>
    match s.tasks[k]? with
    | some ⟨i, kind, .sending o j rest⟩ =>
      some (s.sendReturns cfg k ⟨i, kind, .sending o j rest⟩ o rest none)
    | _ => none
  | .resume k =>
    match s.tasks[k]? with
    | some ⟨i, kind, .steppingDown rest⟩ =>
      some (s.sendNext cfg k ⟨i, kind, .steppingDown rest⟩ rest)
    | some ⟨i, kind, .applying⟩ =>
      some (s.applied k ⟨i, kind, .applying⟩ (s.nodes i).applyCommitted)
    | _ => none
  | .raise k =>
    match s.tasks[k]? with
    | some ⟨i, kind, .applying⟩ => some (s.setPc k ⟨i, kind, .applying⟩ .raised)
    | _ => none
  | .deliver j now =>
    match s.rpcs[j]? with
    | some r => match r.stage with
      | .inFlight => some (s.deliver j r now)
      | _ => none
    | none => none
  | .resumeHandler j now =>
    match s.rpcs[j]? with
    | some r => match r.stage with
      | .steppingDown => some (s.handle j r now)
      | .applying => some (s.handlerApplied j r)
      | _ => none
    | none => none
  | .raiseHandler j =>
    match s.rpcs[j]? with
    | some r => match r.stage with
      | .applying => some (s.setStage j r .lost)
      | _ => none
    | none => none
  | .crash i now => if i ∈ cfg.nodes then some (s.restart i (s.nodes i).stateFile now) else none
  | .crashSaving i now => if i ∈ cfg.nodes then some (s.restart i none now) else none

def run (cfg : Config N) (s : Cluster N C) (acts : List (Action N C)) : Option (Cluster N C) :=
  Transition.run (step cfg) s acts

/-- `P` holds at every step of a run. -/
abbrev EachStep (cfg : Config N) (P : Cluster N C → Action N C → Prop) (s : Cluster N C)
    (acts : List (Action N C)) : Prop :=
  Transition.EachStep (step cfg) P s acts

end Cluster

end Pynchronize
