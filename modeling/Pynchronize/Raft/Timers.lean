import Mathlib.Tactic.Linarith
import Pynchronize.Raft.StaleTraffic
import Pynchronize.Raft.Trace

/-!
# Election timers

What one step does to `_last_heartbeat` and to the two loops of a node, to an
AppendEntries on its way, and, where nobody stands for election, to the terms
in the cluster.
-/

namespace Pynchronize

open Lib

variable {N C : Type*}

/-! ## The timer of a node -/

/-- The two loops of a node and `_last_heartbeat`. -/
def RaftNode.timers (n : RaftNode N C) : ElectionTask N × Option ℕ × ℚ :=
  (n.electionTask, n.heartbeatTask, n.lastHeartbeat)

/-- The time that the code reads from the event loop in this step. -/
def Action.reads : Action N C → Option ℚ
  | .electionTimeout _ _ now => some now
  | .deliver _ now => some now
  | .resumeHandler _ now => some now
  | .crash _ now => some now
  | .crashSaving _ now => some now
  | _ => none

/-- `election_timeout_min` in seconds. -/
def Config.minTimeout (cfg : Config N) : ℚ := cfg.electionTimeoutMin / 1000

def Action.crashes [DecidableEq N] (i : N) : Action N C → Bool
  | .crash j _ => j = i
  | .crashSaving j _ => j = i
  | _ => false

namespace RaftNode

variable [DecidableEq N]

end RaftNode

namespace Cluster

variable [DecidableEq N] {cfg : Config N} {s s' : Cluster N C} {a : Action N C}

end Cluster

/-! ## Requests on their way -/

/-- The handler has not come to the part behind its term check. -/
def Rpc.pending (r : Rpc N C) : Bool :=
  match r.stage with
  | .inFlight => true
  | .steppingDown => true
  | _ => false

namespace Cluster

variable {s s' : Cluster N C} {a : Action N C} {j : ℕ} {r : Rpc N C}

variable [DecidableEq N] {cfg : Config N}

end Cluster

/-! ## Terms -/

/-- The latest term that an RPC tells of. -/
def Rpc.latestTerm (r : Rpc N C) : ℕ :=
  match r.stage with
  | .answered response => max r.message.term response.term
  | _ => r.message.term

def ElectionTask.isSleeping : ElectionTask N → Bool
  | .sleeping => true
  | _ => false

namespace Cluster

/-- Nobody knows of a term after `T`, and nobody stands for one. -/
structure Quiet (T : ℕ) (s : Cluster N C) : Prop where
  nodes : ∀ i, (s.nodes i).persistent.currentTerm ≤ T
  rpcs : ∀ r ∈ s.rpcs, r.latestTerm ≤ T
  sleeping : ∀ i, (s.nodes i).electionTask.isSleeping = true

variable [DecidableEq N] {cfg : Config N} {s s' : Cluster N C} {a : Action N C} {T : ℕ}

omit [DecidableEq N] in
theorem Quiet.answer (hq : Quiet T s) {j : ℕ} {response : Message N Response}
    (hans : s.answerOf j = some response) : response.term ≤ T := by
  obtain ⟨r, hr, hst⟩ := answerOf_eq_some hans
  have hlatest := hq.rpcs r (List.mem_of_getElem? hr)
  unfold Rpc.latestTerm at hlatest
  rw [hst] at hlatest
  exact (le_max_right _ _).trans hlatest

end Cluster

end Pynchronize
