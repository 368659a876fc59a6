import Mathlib.Algebra.Order.Ring.Rat
import Pynchronize.Lib.Dict

/-!
# One RaftNode

The state of a `RaftNode` and the code of its methods between two `await`s. A
method that suspends inside is split there: each part is a function of the
node's state, and `Raft/Cluster.lean` interleaves the parts. `N` is the type of
node ids and `C` the type of commands; clock readings are rationals, in seconds.
-/

namespace Pynchronize

open Lib

inductive RaftState
  | follower
  | candidate
  | leader
  deriving DecidableEq, Repr

structure LogEntry (C : Type*) where
  term : ℕ
  index : ℕ
  command : C
  deriving DecidableEq

structure PersistentState (N C : Type*) where
  currentTerm : ℕ := 0
  votedFor : Option N := none
  log : List (LogEntry C) := []

structure VolatileState where
  commitIndex : ℕ := 0
  lastApplied : ℕ := 0

structure LeaderState (N : Type*) where
  nextIndex : Dict N ℕ
  matchIndex : Dict N ℕ

/-! ## Messages -/

inductive Request (N C : Type*)
  | requestVote (candidateId : N) (lastLogIndex lastLogTerm : ℕ)
  | appendEntries (leaderId : N) (prevLogIndex prevLogTerm : ℕ) (entries : List (LogEntry C))
      (leaderCommit : ℕ)

inductive Response
  | requestVoteResponse (voteGranted : Bool)
  | appendEntriesResponse (success : Bool)
  deriving DecidableEq

/-- `response.payload.get("vote_granted")`, absent in the other kind of response. -/
def Response.voteGranted : Response → Bool
  | .requestVoteResponse voteGranted => voteGranted
  | .appendEntriesResponse _ => false

def Response.success : Response → Bool
  | .requestVoteResponse _ => false
  | .appendEntriesResponse success => success

structure Message (N P : Type*) where
  senderId : N
  term : ℕ
  payload : P

/-! ## Configuration -/

structure Config (N : Type*) where
  nodes : List N
  nodup : nodes.Nodup
  electionTimeoutMin : ℕ := 150
  electionTimeoutMax : ℕ := 300

def Config.getOtherNodes {N : Type*} [DecidableEq N] (cfg : Config N) (nodeId : N) : List N :=
  cfg.nodes.filter fun n => n ≠ nodeId

def Config.getMajority {N : Type*} (cfg : Config N) : ℕ := cfg.nodes.length / 2 + 1

/-! ## The node -/

/-- Where `_election_loop` is suspended: in its sleep, in `broadcast` with the RPC of every target,
    or in `on_become_leader`. -/
inductive ElectionTask (N : Type*)
  | sleeping
  | broadcasting (sends : List (N × ℕ))
  | becomingLeader

/-- `stateFile` is what `_load_state` would read from `state_path`, `none` while there is no
    readable file. `applied` records the calls of `command_handler` with the index of their
    entry. -/
structure RaftNode (N C : Type*) where
  state : RaftState
  persistent : PersistentState N C
  volatile : VolatileState
  leaderState : Option (LeaderState N)
  currentLeader : Option N
  votesReceived : Dict N Bool
  electionTask : ElectionTask N
  heartbeatTask : Option ℕ
  lastHeartbeat : ℚ
  stateFile : Option (PersistentState N C)
  applied : List (ℕ × C)

namespace RaftNode

variable {N C : Type*}

/-- `RaftNode(...)` over the given file, started at time `now`. -/
def boot (stateFile : Option (PersistentState N C)) (now : ℚ) : RaftNode N C where
  state := .follower
  persistent := stateFile.getD {}
  volatile := {}
  leaderState := none
  currentLeader := none
  votesReceived := Dict.empty
  electionTask := .sleeping
  heartbeatTask := none
  lastHeartbeat := now
  stateFile := stateFile
  applied := []

def saveState (n : RaftNode N C) : RaftNode N C :=
  { n with stateFile := some n.persistent }

def getLastLogIndex (n : RaftNode N C) : ℕ :=
  match n.persistent.log.getLast? with
  | some entry => entry.index
  | none => 0

def getLastLogTerm (n : RaftNode N C) : ℕ :=
  match n.persistent.log.getLast? with
  | some entry => entry.term
  | none => 0

def getLogEntry (n : RaftNode N C) (index : ℕ) : Option (LogEntry C) :=
  if index ≤ 0 ∨ index > n.persistent.log.length then none else n.persistent.log[index - 1]?

def stepDown (n : RaftNode N C) (newTerm : ℕ) : RaftNode N C :=
  { n with
    state := .follower
    persistent := { n.persistent with currentTerm := newTerm, votedFor := none }
    leaderState := none }.saveState

/-! ## Applying committed entries -/

/-- At most `k` rounds of the loop of `_apply_committed`; it stops at the first call of
    `command_handler` and then answers `true`. -/
def applyLoop : ℕ → RaftNode N C → RaftNode N C × Bool
  | 0, n => (n, false)
  | k + 1, n =>
    let n := { n with volatile := { n.volatile with lastApplied := n.volatile.lastApplied + 1 } }
    match n.getLogEntry n.volatile.lastApplied with
    | some entry =>
      ({ n with applied := n.applied ++ [(n.volatile.lastApplied, entry.command)] }, true)
    | none => applyLoop k n

/-- `_apply_committed` up to its next call of `command_handler`, or to its end. -/
def applyCommitted (n : RaftNode N C) : RaftNode N C × Bool :=
  applyLoop (n.volatile.commitIndex - n.volatile.lastApplied) n

def matchCount (ls : LeaderState N) (n : ℕ) : ℕ :=
  1 + (ls.matchIndex.items.filter fun kv => kv.2 ≥ n).length

/-- One round of the loop of `_try_commit`. -/
def tryCommitAt (cfg : Config N) (ls : LeaderState N) (node : RaftNode N C) (n : ℕ) :
    RaftNode N C :=
  match node.getLogEntry n with
  | none => node
  | some entry =>
    if entry.term ≠ node.persistent.currentTerm then node
    else if matchCount ls n ≥ cfg.getMajority then
      { node with volatile := { node.volatile with commitIndex := n } }
    else node

def tryCommit (cfg : Config N) (n : RaftNode N C) : RaftNode N C × Bool :=
  match n.state, n.leaderState with
  | .leader, some ls =>
    let range := List.range' (n.volatile.commitIndex + 1)
      (n.persistent.log.length - n.volatile.commitIndex)
    (range.foldl (tryCommitAt cfg ls) n).applyCommitted
  | _, _ => (n, false)

/-! ## Elections -/

section Elections

variable [DecidableEq N]

/-- `_start_election` up to its broadcast. -/
def startElection (nodeId : N) (n : RaftNode N C) : RaftNode N C :=
  { n with
    state := .candidate
    persistent :=
      { n.persistent with
        currentTerm := n.persistent.currentTerm + 1
        votedFor := some nodeId }
    votesReceived := Dict.empty.set nodeId true }.saveState

def requestVoteMessage (nodeId : N) (n : RaftNode N C) : Message N (Request N C) where
  senderId := nodeId
  term := n.persistent.currentTerm
  payload := .requestVote nodeId n.getLastLogIndex n.getLastLogTerm

def collectVote (n : RaftNode N C) (response : N × Option (Message N Response)) : RaftNode N C :=
  match response.2 with
  | some message =>
    if message.payload.voteGranted then
      { n with votesReceived := n.votesReceived.set response.1 true }
    else n
  | none => n

/-- `_become_leader` up to `on_become_leader`. -/
def becomeLeader (cfg : Config N) (nodeId : N) (n : RaftNode N C) : RaftNode N C :=
  let others := cfg.getOtherNodes nodeId
  { n with
    state := .leader
    currentLeader := some nodeId
    leaderState := some
      { nextIndex := others.foldl (fun d node => d.set node (n.getLastLogIndex + 1)) Dict.empty
        matchIndex := others.foldl (fun d node => d.set node 0) Dict.empty } }

/-- `_handle_request_vote` after the term check. -/
def handleRequestVote (nodeId : N) (now : ℚ) (n : RaftNode N C) (term : ℕ) (candidateId : N)
    (lastLogIndex lastLogTerm : ℕ) : RaftNode N C × Message N Response :=
  let logOk := lastLogTerm > n.getLastLogTerm ∨
    lastLogTerm = n.getLastLogTerm ∧ lastLogIndex ≥ n.getLastLogIndex
  let canVote := n.persistent.votedFor = none ∨ n.persistent.votedFor = some candidateId
  if term ≥ n.persistent.currentTerm ∧ canVote ∧ logOk then
    let n := { n with persistent := { n.persistent with votedFor := some candidateId } }.saveState
    ({ n with lastHeartbeat := now },
      ⟨nodeId, n.persistent.currentTerm, .requestVoteResponse true⟩)
  else (n, ⟨nodeId, n.persistent.currentTerm, .requestVoteResponse false⟩)

end Elections

/-! ## Replication -/

/-- The locals of one round of the loop of `_send_append_entries`. -/
structure Outgoing (N C : Type*) where
  nodeId : N
  nextIdx : ℕ
  prevLogIndex : ℕ
  entries : List (LogEntry C)

/-- The entry at the end of the log that `propose` creates. -/
def newEntry (n : RaftNode N C) (command : C) : LogEntry C where
  term := n.persistent.currentTerm
  index := n.persistent.log.length + 1
  command := command

/-- `propose` on a leader, up to its call of `_send_append_entries`. -/
def appendCommand (n : RaftNode N C) (command : C) : RaftNode N C :=
  { n with
    persistent :=
      { n.persistent with log := n.persistent.log ++ [n.newEntry command] } }.saveState

section Sender

variable [DecidableEq N]

def outgoing (n : RaftNode N C) (ls : LeaderState N) (nodeId : N) : Outgoing N C :=
  let nextIdx := (ls.nextIndex.get? nodeId).getD 1
  { nodeId := nodeId
    nextIdx := nextIdx
    prevLogIndex := nextIdx - 1
    entries :=
      if nextIdx ≤ n.persistent.log.length then n.persistent.log.drop (nextIdx - 1) else [] }

def appendEntriesMessage (nodeId : N) (n : RaftNode N C) (o : Outgoing N C) :
    Message N (Request N C) where
  senderId := nodeId
  term := n.persistent.currentTerm
  payload :=
    .appendEntries nodeId o.prevLogIndex
      (match n.getLogEntry o.prevLogIndex with
        | some prevEntry => prevEntry.term
        | none => 0)
      o.entries n.volatile.commitIndex

/-- What `_send_append_entries` does with a response: `none` when it raises because `leader_state`
    is gone, `true` when it is suspended in `_step_down`. -/
def handleResponse (n : RaftNode N C) (o : Outgoing N C) :
    Option (Message N Response) → Option (RaftNode N C × Bool)
  | none => some (n, false)
  | some response =>
    if response.payload.success then
      if o.entries.isEmpty then some (n, false)
      else
        n.leaderState.map fun ls =>
          let matchIdx := o.prevLogIndex + o.entries.length
          ({ n with
              leaderState := some
                { nextIndex := ls.nextIndex.set o.nodeId (matchIdx + 1)
                  matchIndex := ls.matchIndex.set o.nodeId matchIdx } }, false)
    else if response.term > n.persistent.currentTerm then some (n.stepDown response.term, true)
    else
      n.leaderState.map fun ls =>
        ({ n with
            leaderState := some
              { ls with nextIndex := ls.nextIndex.set o.nodeId (max 1 (o.nextIdx - 1)) } }, false)

end Sender

/-- One round of the loop of `_handle_append_entries`. Entries carry indices from 1 on, so the
    lookup at `entry.index - 1` finds the entry whenever the guard holds. -/
def mergeEntry (log : List (LogEntry C)) (entry : LogEntry C) : List (LogEntry C) :=
  if entry.index ≤ log.length then
    match log[entry.index - 1]? with
    | some existing =>
      if existing.term ≠ entry.term then log.take (entry.index - 1) ++ [entry] else log
    | none => log
  else log ++ [entry]

/-- The check of `prev_log_index` and `prev_log_term`. -/
def matchesPrev (n : RaftNode N C) (prevLogIndex prevLogTerm : ℕ) : Bool :=
  if prevLogIndex > 0 then
    match n.getLogEntry prevLogIndex with
    | some prevEntry => prevEntry.term = prevLogTerm
    | none => false
  else true

/-- The answer of `_handle_append_entries` from its end. -/
def appendEntriesResponse (nodeId : N) (n : RaftNode N C) (success : Bool) : Message N Response :=
  ⟨nodeId, n.persistent.currentTerm, .appendEntriesResponse success⟩

/-- The entries taken over and saved, if there are any. -/
def mergeEntries (n : RaftNode N C) (entries : List (LogEntry C)) : RaftNode N C :=
  let log := entries.foldl mergeEntry n.persistent.log
  let n := { n with persistent := { n.persistent with log := log } }
  if entries.isEmpty then n else n.saveState

/-- The commit index taken over, and the newly committed entries applied up to the next call of
    `command_handler`. -/
def followCommit (n : RaftNode N C) (leaderCommit : ℕ) : RaftNode N C × Bool :=
  if leaderCommit > n.volatile.commitIndex then
    { n with
      volatile :=
        { n.volatile with commitIndex := min leaderCommit n.getLastLogIndex } }.applyCommitted
  else (n, false)

/-- `_handle_append_entries` after the term check; no answer yet while it is suspended in
    `command_handler`. -/
def handleAppendEntries (nodeId : N) (now : ℚ) (n : RaftNode N C) (term : ℕ) (leaderId : N)
    (prevLogIndex prevLogTerm : ℕ) (entries : List (LogEntry C)) (leaderCommit : ℕ) :
    RaftNode N C × Option (Message N Response) :=
  let n := { n with lastHeartbeat := now }
  if term < n.persistent.currentTerm then (n, some (n.appendEntriesResponse nodeId false))
  else
    let n := { n with currentLeader := some leaderId }
    let n := if n.state = .candidate then { n with state := .follower } else n
    if n.matchesPrev prevLogIndex prevLogTerm then
      let n := n.mergeEntries entries
      let (n, suspended) := n.followCommit leaderCommit
      (n, if suspended then none else some (n.appendEntriesResponse nodeId true))
    else (n, some (n.appendEntriesResponse nodeId false))

end RaftNode

end Pynchronize
