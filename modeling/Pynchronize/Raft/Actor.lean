import Pynchronize.Raft.Step

/-!
# The node whose code runs

A step runs the code of one node. `nodes_of_ne_actor` says that the others stay
as they are, `nodeStep` what becomes of the one: `NodeStep` lists the methods
that can run, with the guards they run under.
-/

namespace Pynchronize.Cluster

open Lib

variable {N C : Type*} [DecidableEq N] {cfg : Config N} {s s' : Cluster N C}

/-! ## Changing one node -/

theorem nodes_setNode_self (s : Cluster N C) (i : N) (n : RaftNode N C) :
    (s.setNode i n).nodes i = n := Function.update_self ..

theorem nodes_setNode_of_ne (s : Cluster N C) {i j : N} (h : j ≠ i) (n : RaftNode N C) :
    (s.setNode i n).nodes j = s.nodes j := Function.update_of_ne h ..

theorem nodes_restart_self (s : Cluster N C) (i : N) (file : Option (PersistentState N C))
    (now : ℚ) : (s.restart i file now).nodes i = RaftNode.boot file now :=
  Function.update_self ..

theorem nodes_restart_of_ne (s : Cluster N C) {i j : N} (h : j ≠ i)
    (file : Option (PersistentState N C)) (now : ℚ) :
    (s.restart i file now).nodes j = s.nodes j :=
  Function.update_of_ne h ..

/-! ## The other nodes -/

/-- The node whose code runs in a step. -/
def actor (s : Cluster N C) : Action N C → Option N
  | .electionTimeout i _ _ => some i
  | .electionEnds i _ => some i
  | .becameLeader i => some i
  | .propose i _ => some i
  | .heartbeat k => (s.tasks[k]?).map Task.node
  | .reply k => (s.tasks[k]?).map Task.node
  | .noReply k => (s.tasks[k]?).map Task.node
  | .resume k => (s.tasks[k]?).map Task.node
  | .raise k => (s.tasks[k]?).map Task.node
  | .deliver j _ => (s.rpcs[j]?).map Rpc.dst
  | .resumeHandler j _ => (s.rpcs[j]?).map Rpc.dst
  | .raiseHandler j => (s.rpcs[j]?).map Rpc.dst
  | .crash i _ => some i
  | .crashSaving i _ => some i

theorem sendNext_of_ne (s : Cluster N C) (k : ℕ) (t : Task N C) (rest : List N) {j : N}
    (hne : j ≠ t.node) : (s.sendNext cfg k t rest).nodes j = s.nodes j := by
  cases rest with
  | nil => exact nodes_setNode_of_ne s hne _
  | cons nodeId rest =>
    unfold sendNext
    cases (s.nodes t.node).leaderState with
    | none => rfl
    | some ls => rfl

theorem sendAppendEntries_of_ne (s : Cluster N C) (k : ℕ) (t : Task N C) {j : N}
    (hne : j ≠ t.node) : (s.sendAppendEntries cfg k t).nodes j = s.nodes j := by
  unfold sendAppendEntries
  split
  · rfl
  · exact sendNext_of_ne s k t _ hne

theorem sendReturns_of_ne (s : Cluster N C) (k : ℕ) (t : Task N C) (o : RaftNode.Outgoing N C)
    (rest : List N) (response : Option (Message N Response)) {j : N} (hne : j ≠ t.node) :
    (s.sendReturns cfg k t o rest response).nodes j = s.nodes j := by
  unfold sendReturns
  split
  · rfl
  · exact nodes_setNode_of_ne s hne _
  · exact (sendNext_of_ne _ k t rest hne).trans (nodes_setNode_of_ne s hne _)

theorem handle_of_ne (s : Cluster N C) (i : ℕ) (r : Rpc N C) (now : ℚ) {j : N} (hne : j ≠ r.dst) :
    (s.handle i r now).nodes j = s.nodes j := by
  unfold handle
  split
  · exact nodes_setNode_of_ne s hne _
  · exact nodes_setNode_of_ne s hne _

/-- A step changes no node but the one whose code runs. -/
theorem nodes_of_ne_actor {a : Action N C} (h : s.step cfg a = some s') {j : N}
    (hj : s.actor a ≠ some j) : s'.nodes j = s.nodes j := by
  have other : ∀ {i : N}, s.actor a = some i → j ≠ i := by
    rintro i hi rfl
    exact hj hi
  cases stepped h with
  | @electionTimeout i =>
    have hne := other rfl
    exact (nodes_setNode_of_ne _ hne _).trans (nodes_setNode_of_ne s hne _)
  | @electionEnds i =>
    have hne : j ≠ i := other rfl
    unfold countVotes
    split
    · exact nodes_setNode_of_ne s hne _
    · exact nodes_setNode_of_ne s hne _
  | becameLeader => exact nodes_setNode_of_ne _ (other rfl) _
  | propose =>
    have hne := other rfl
    exact (sendAppendEntries_of_ne _ _ _ hne).trans (nodes_setNode_of_ne s hne _)
  | heartbeat ht => exact sendAppendEntries_of_ne s _ _ (other (by simp [actor, ht]))
  | heartbeatEnds => rfl
  | reply ht => exact sendReturns_of_ne s _ _ _ _ _ (other (by simp [actor, ht]))
  | noReply ht => exact sendReturns_of_ne s _ _ _ _ _ (other (by simp [actor, ht]))
  | resumeSending ht => exact sendNext_of_ne s _ _ _ (other (by simp [actor, ht]))
  | resumeApplying ht => exact nodes_setNode_of_ne s (other (by simp [actor, ht])) _
  | raise => rfl
  | @deliver i now r hr =>
    have hne := other (i := r.dst) (by simp [actor, hr])
    unfold deliver
    split
    · exact nodes_setNode_of_ne s hne _
    · exact handle_of_ne s i r now hne
  | resumeHandling hr => exact handle_of_ne s _ _ _ (other (by simp [actor, hr]))
  | resumeHandlerApplying hr => exact nodes_setNode_of_ne s (other (by simp [actor, hr])) _
  | raiseHandler => rfl
  | crash => exact nodes_restart_of_ne s (other rfl) _ _
  | crashSaving => exact nodes_restart_of_ne s (other rfl) _ _

/-! ## The node that runs -/

/-- The node that a loop of sends goes on with. -/
inductive SendsAs (s : Cluster N C) (a : Action N C) (i : N) : RaftNode N C → Prop
  | unchanged : SendsAs s a i (s.nodes i)
  | proposed {command : C} (ha : a = .propose i command) (hs : (s.nodes i).state = .leader) :
      SendsAs s a i ((s.nodes i).appendCommand command)
  | answered {k j : ℕ} {kind : TaskKind} {o : RaftNode.Outgoing N C} {rest : List N}
      {response : Message N Response} {m : RaftNode N C} (ha : a = .reply k)
      (ht : s.tasks[k]? = some ⟨i, kind, .sending o j rest⟩) (hans : s.answerOf j = some response)
      (heq : (s.nodes i).handleResponse o (some response) = some (m, false)) : SendsAs s a i m

/-- What the code that runs in a step makes of its node. -/
inductive NodeStep (cfg : Config N) (s : Cluster N C) (a : Action N C) (i : N) :
    RaftNode N C → Prop
  | idle : NodeStep cfg s a i (s.nodes i)
  | stands {sends : List (N × ℕ)} (hs : (s.nodes i).state ≠ .leader) :
      NodeStep cfg s a i
        { (s.nodes i).startElection i with electionTask := .broadcasting sends }
  | loses (responses : List (N × Option (Message N Response))) :
      NodeStep cfg s a i
        { responses.foldl RaftNode.collectVote (s.nodes i) with electionTask := .sleeping }
  | wins (responses : List (N × Option (Message N Response)))
      (hs : (responses.foldl RaftNode.collectVote (s.nodes i)).state = .candidate) :
      NodeStep cfg s a i
        { (responses.foldl RaftNode.collectVote (s.nodes i)).becomeLeader cfg i with
          electionTask := .becomingLeader }
  | startsHeartbeat :
      NodeStep cfg s a i
        { s.nodes i with electionTask := .sleeping, heartbeatTask := some s.tasks.length }
  | sends {m : RaftNode N C} (hm : SendsAs s a i m) : NodeStep cfg s a i m
  | commits {m : RaftNode N C} (hm : SendsAs s a i m) : NodeStep cfg s a i (m.tryCommit cfg).1
  | applies : NodeStep cfg s a i (s.nodes i).applyCommitted.1
  | stepsDownOnResponse {k j : ℕ} {kind : TaskKind} {o : RaftNode.Outgoing N C} {rest : List N}
      {response : Message N Response} {n : RaftNode N C} (ha : a = .reply k)
      (ht : s.tasks[k]? = some ⟨i, kind, .sending o j rest⟩) (hans : s.answerOf j = some response)
      (heq : (s.nodes i).handleResponse o (some response) = some (n, true)) :
      NodeStep cfg s a i n
  | stepsDownOnRequest {j : ℕ} {now : ℚ} {r : Rpc N C} (ha : a = .deliver j now)
      (hr : s.rpcs[j]? = some r) (hdst : r.dst = i) (hst : r.stage = .inFlight)
      (hlt : (s.nodes i).persistent.currentTerm < r.message.term) :
      NodeStep cfg s a i ((s.nodes i).stepDown r.message.term)
  | handlesRequestVote {j : ℕ} {now : ℚ} {r : Rpc N C} {candidateId : N}
      {lastLogIndex lastLogTerm : ℕ} (hr : s.rpcs[j]? = some r) (hdst : r.dst = i)
      (hpay : r.message.payload = .requestVote candidateId lastLogIndex lastLogTerm) :
      NodeStep cfg s a i ((s.nodes i).handleRequestVote i now r.message.term candidateId
        lastLogIndex lastLogTerm).1
  | handlesAppendEntries {j : ℕ} {now : ℚ} {r : Rpc N C} {leaderId : N} {prev prevTerm : ℕ}
      {entries : List (LogEntry C)} {leaderCommit : ℕ} (hr : s.rpcs[j]? = some r)
      (hdst : r.dst = i)
      (hst : r.stage = .steppingDown ∧ a = .resumeHandler j now ∨ r.stage = .inFlight ∧
        a = .deliver j now ∧ r.message.term ≤ (s.nodes i).persistent.currentTerm)
      (hpay : r.message.payload = .appendEntries leaderId prev prevTerm entries leaderCommit) :
      NodeStep cfg s a i ((s.nodes i).handleAppendEntries i now r.message.term leaderId prev
        prevTerm entries leaderCommit).1
  | restarts {file : Option (PersistentState N C)} {now : ℚ}
      (ha : a = .crash i now ∧ file = (s.nodes i).stateFile ∨
        a = .crashSaving i now ∧ file = none) :
      NodeStep cfg s a i (.boot file now)

theorem NodeStep.of_eq {a : Action N C} {i : N} {n n' : RaftNode N C}
    (h : NodeStep cfg s a i n) (heq : n' = n) : NodeStep cfg s a i n' := heq ▸ h

/-- A loop of sends is suspended again, or ends in `_try_commit`. -/
theorem nodeStep_sendNext {a : Action N C} {u : Cluster N C} {k : ℕ} {t : Task N C}
    (hm : SendsAs s a t.node (u.nodes t.node)) (rest : List N) :
    NodeStep cfg s a t.node ((u.sendNext cfg k t rest).nodes t.node) := by
  cases rest with
  | nil => exact (NodeStep.commits hm).of_eq (nodes_setNode_self u t.node _)
  | cons nodeId rest =>
    unfold sendNext
    cases (u.nodes t.node).leaderState with
    | none => exact .sends hm
    | some ls => exact .sends hm

theorem nodeStep_sendAppendEntries {a : Action N C} {u : Cluster N C} {k : ℕ} {t : Task N C}
    (hm : SendsAs s a t.node (u.nodes t.node)) :
    NodeStep cfg s a t.node ((u.sendAppendEntries cfg k t).nodes t.node) := by
  unfold sendAppendEntries
  split
  · exact .sends hm
  · exact nodeStep_sendNext hm _

theorem nodeStep_handle {a : Action N C} {j : ℕ} {now : ℚ} {r : Rpc N C}
    (hr : s.rpcs[j]? = some r)
    (hst : r.stage = .steppingDown ∧ a = .resumeHandler j now ∨ r.stage = .inFlight ∧
      a = .deliver j now ∧ r.message.term ≤ (s.nodes r.dst).persistent.currentTerm) :
    NodeStep cfg s a r.dst ((s.handle j r now).nodes r.dst) := by
  unfold handle
  split
  · rename_i hpay
    exact (NodeStep.handlesRequestVote hr rfl hpay).of_eq (nodes_setNode_self s r.dst _)
  · rename_i hpay
    exact (NodeStep.handlesAppendEntries hr rfl hst hpay).of_eq (nodes_setNode_self s r.dst _)

/-- A node stays as it is in a step, or one of its methods runs. -/
theorem nodeStep {a : Action N C} (h : s.step cfg a = some s') (i : N) :
    NodeStep cfg s a i (s'.nodes i) := by
  by_cases hactor : s.actor a = some i
  swap
  · rw [nodes_of_ne_actor h hactor]
    exact .idle
  cases stepped h with
  | @electionTimeout i' _ _ _ hs =>
    obtain rfl := Option.some.inj hactor
    have hnode : ((s.setNode i' ((s.nodes i').startElection i')).broadcastRequestVote cfg i').nodes
        i' = { (s.nodes i').startElection i' with
          electionTask := .broadcasting ((cfg.getOtherNodes i').zipIdx s.rpcs.length) } := by
      simp [broadcastRequestVote, setNode]
    exact (NodeStep.stands hs).of_eq hnode
  | @electionEnds i' received sends =>
    obtain rfl := Option.some.inj hactor
    unfold countVotes
    split
    · rename_i hwin
      exact (NodeStep.wins _ hwin.2).of_eq (nodes_setNode_self s i' _)
    · exact (NodeStep.loses _).of_eq (nodes_setNode_self s i' _)
  | @becameLeader i' =>
    obtain rfl := Option.some.inj hactor
    exact NodeStep.startsHeartbeat.of_eq (nodes_setNode_self _ i' _)
  | @propose i' command _ hs =>
    obtain rfl := Option.some.inj hactor
    refine nodeStep_sendAppendEntries (t := ⟨i', .propose, .looping⟩) ?_
    show SendsAs s _ i' ((s.setNode i' ((s.nodes i').appendCommand command)).nodes i')
    rw [nodes_setNode_self]
    exact .proposed rfl hs
  | @heartbeat k i' ht =>
    obtain rfl : i' = i := by simpa [actor, ht] using hactor
    exact nodeStep_sendAppendEntries (t := ⟨i', .heartbeat, .looping⟩) .unchanged
  | heartbeatEnds => exact .idle
  | @reply k j i' kind o rest response ht hans =>
    obtain rfl : i' = i := by simpa [actor, ht] using hactor
    unfold sendReturns
    split
    · exact .idle
    · rename_i n heq
      exact (NodeStep.stepsDownOnResponse rfl ht hans heq).of_eq (nodes_setNode_self s i' n)
    · rename_i n heq
      refine nodeStep_sendNext (t := ⟨i', kind, .sending o j rest⟩) ?_ rest
      rw [nodes_setNode_self]
      exact .answered rfl ht hans heq
  | @noReply k j i' kind o rest ht =>
    obtain rfl : i' = i := by simpa [actor, ht] using hactor
    refine nodeStep_sendNext (t := ⟨i', kind, .sending o j rest⟩) ?_ rest
    rw [nodes_setNode_self]
    exact .unchanged
  | @resumeSending k i' kind rest ht =>
    obtain rfl : i' = i := by simpa [actor, ht] using hactor
    exact nodeStep_sendNext (t := ⟨i', kind, .steppingDown rest⟩) .unchanged rest
  | @resumeApplying k i' kind ht =>
    obtain rfl : i' = i := by simpa [actor, ht] using hactor
    exact NodeStep.applies.of_eq (nodes_setNode_self s i' _)
  | raise => exact .idle
  | @deliver j now r hr hst =>
    obtain rfl : r.dst = i := by simpa [actor, hr] using hactor
    unfold deliver
    split
    · rename_i hlt
      exact (NodeStep.stepsDownOnRequest rfl hr rfl hst hlt).of_eq (nodes_setNode_self s r.dst _)
    · rename_i hle
      exact nodeStep_handle hr (Or.inr ⟨hst, rfl, Nat.le_of_not_lt hle⟩)
  | @resumeHandling j now r hr hst =>
    obtain rfl : r.dst = i := by simpa [actor, hr] using hactor
    exact nodeStep_handle hr (Or.inl ⟨hst, rfl⟩)
  | @resumeHandlerApplying j now r hr =>
    obtain rfl : r.dst = i := by simpa [actor, hr] using hactor
    exact NodeStep.applies.of_eq (nodes_setNode_self s r.dst _)
  | raiseHandler => exact .idle
  | @crash i' =>
    obtain rfl := Option.some.inj hactor
    exact (NodeStep.restarts (Or.inl ⟨rfl, rfl⟩)).of_eq (nodes_restart_self s i' _ _)
  | @crashSaving i' =>
    obtain rfl := Option.some.inj hactor
    exact (NodeStep.restarts (Or.inr ⟨rfl, rfl⟩)).of_eq (nodes_restart_self s i' _ _)

end Pynchronize.Cluster
