import Pynchronize.Raft.Actor
import Pynchronize.Raft.Simulation

/-!
# Roles along a run

What one step can do to the role of a node, and who sends AppendEntries.
-/

namespace Pynchronize

open Lib Lib.Replication

variable {N C : Type*}

namespace RaftNode

/-- A step keeps role and term of a node, or the node steps down or restarts, stands for election,
    or wins the election it stands in. -/
inductive RoleStep (n n' : RaftNode N C) : Prop
  | keep (ht : n'.persistent.currentTerm = n.persistent.currentTerm)
      (hs : n'.state = .leader → n.state = .leader)
  | follow (hs : n'.state = .follower)
  | stand (hs : n'.state = .candidate)
  | win (hs : n.state = .candidate)
      (ht : n'.persistent.currentTerm = n.persistent.currentTerm)

theorem KeepsRole.roleStep {n n' : RaftNode N C} (h : KeepsRole n n') : RoleStep n n' :=
  .keep h.currentTerm h.leader

theorem RoleStep.refl (n : RaftNode N C) : RoleStep n n := (KeepsRole.refl n).roleStep

/-- Leadership begins where the node stood as a candidate of the same term. -/
theorem RoleStep.candidate_of_new_leader {n n' : RaftNode N C} (h : RoleStep n n')
    (hs : n.state ≠ .leader) (hs' : n'.state = .leader) :
    n.state = .candidate ∧ n'.persistent.currentTerm = n.persistent.currentTerm := by
  cases h with
  | keep _ h => exact absurd (h hs') hs
  | follow h =>
    rw [hs'] at h
    cases h
  | stand h =>
    rw [hs'] at h
    cases h
  | win h ht => exact ⟨h, ht⟩

theorem RoleStep.currentTerm_of_leader {n n' : RaftNode N C} (h : RoleStep n n')
    (hs : n.state = .leader) (hs' : n'.state = .leader) :
    n'.persistent.currentTerm = n.persistent.currentTerm := by
  cases h with
  | keep ht => exact ht
  | follow h =>
    rw [hs'] at h
    cases h
  | stand h =>
    rw [hs'] at h
    cases h
  | win h =>
    rw [hs] at h
    cases h

/-- A response changes only `leader_state`, unless it makes the node step down. -/
theorem handleResponse_cases [DecidableEq N] {n n' : RaftNode N C} {o : Outgoing N C}
    {response : Option (Message N Response)} {suspended : Bool}
    (h : n.handleResponse o response = some (n', suspended)) :
    (suspended = false ∧ (KeepsRole n n' ∧ n'.state = n.state) ∧
        n'.leaderState.isSome = n.leaderState.isSome) ∨
      (suspended = true ∧ n'.state = .follower) := by
  cases responds h with
  | passes => exact Or.inl ⟨rfl, ⟨KeepsRole.refl n, rfl⟩, rfl⟩
  | books _ _ hls => exact Or.inl ⟨rfl, ⟨⟨rfl, rfl, id, id⟩, rfl⟩, by rw [hls]; rfl⟩
  | backsOff hls => exact Or.inl ⟨rfl, ⟨⟨rfl, rfl, id, id⟩, rfl⟩, by rw [hls]; rfl⟩
  | stepsDown => exact Or.inr ⟨rfl, rfl⟩

end RaftNode

variable [DecidableEq N] {cfg : Config N} {clean : Prop} {s s' : Cluster N C} {A : History N C}

open RaftNode (RoleStep KeepsRole)

/-! ## Roles -/

theorem Cluster.SendsAs.keepsRole {a : Action N C} {i : N} {m : RaftNode N C}
    (h : s.SendsAs a i m) : KeepsRole (s.nodes i) m := by
  cases h with
  | unchanged => exact KeepsRole.refl _
  | proposed => exact ⟨rfl, rfl, id, id⟩
  | answered _ _ _ heq =>
    rcases RaftNode.handleResponse_cases heq with ⟨-, ⟨hk, -⟩, -⟩ | ⟨h, -⟩
    · exact hk
    · cases h

theorem roleStep_step {a : Action N C} (h : s.step cfg a = some s') (j : N) :
    RoleStep (s.nodes j) (s'.nodes j) := by
  have hstep := Cluster.nodeStep h j
  generalize s'.nodes j = n at hstep ⊢
  cases hstep with
  | idle => exact RaftNode.RoleStep.refl _
  | stands => exact .stand rfl
  | loses responses =>
    have hk := keepsRole_foldl_collectVote (s.nodes j) responses
    exact .keep hk.currentTerm hk.leader
  | wins responses hs =>
    have hk := keepsRole_foldl_collectVote (s.nodes j) responses
    exact .win (hk.candidate hs) hk.currentTerm
  | startsHeartbeat => exact .keep rfl id
  | sends hm => exact hm.keepsRole.roleStep
  | commits hm => exact (hm.keepsRole.trans (RaftNode.keepsRole_tryCommit cfg _)).roleStep
  | applies => exact (RaftNode.keepsRole_applyCommitted _).roleStep
  | stepsDownOnResponse _ _ _ heq =>
    rcases RaftNode.handleResponse_cases heq with ⟨h, -⟩ | ⟨-, hs⟩
    · cases h
    · exact .follow hs
  | stepsDownOnRequest => exact .follow rfl
  | handlesRequestVote => exact (RaftNode.keepsRole_handleRequestVote _ _ _ _ _ _ _).roleStep
  | handlesAppendEntries =>
    exact (RaftNode.keepsRole_handleAppendEntries _ _ _ _ _ _ _ _ _).roleStep
  | restarts => exact .follow rfl

/-! ## Who sends AppendEntries -/

/-- Every AppendEntries that appears in the step is of the term its sender leads in `s'`. -/
def SentByLeader (s s' : Cluster N C) : Prop :=
  ∀ j r, s.rpcs.length ≤ j → s'.rpcs[j]? = some r →
    ∀ leaderId prev prevTerm entries leaderCommit,
      r.message.payload = .appendEntries leaderId prev prevTerm entries leaderCommit →
      (s'.nodes r.src).state = .leader ∧
        r.message.term = (s'.nodes r.src).persistent.currentTerm

omit [DecidableEq N] in
theorem sentByLeader_of_length (h : s'.rpcs.length = s.rpcs.length) : SentByLeader s s' := by
  intro j r hj hr
  have := (List.getElem?_eq_some_iff.mp hr).1
  omega

theorem sentByLeader_sendNext {t : Task N C}
    (hl : (s.nodes t.node).leaderState.isSome = true → (s.nodes t.node).state = .leader) (k : ℕ)
    (rest : List N) : SentByLeader s (s.sendNext cfg k t rest) := by
  cases rest with
  | nil => exact sentByLeader_of_length rfl
  | cons nodeId rest =>
    unfold Cluster.sendNext
    cases hls : (s.nodes t.node).leaderState with
    | none => exact sentByLeader_of_length rfl
    | some ls =>
      rw [hls] at hl
      intro j r hj hr l p pt es lc hpay
      have hr : (s.rpcs ++ [⟨t.node, nodeId, _, .inFlight⟩])[j]? = some r := hr
      rw [List.getElem?_append_right hj] at hr
      have hmem := List.mem_of_getElem? hr
      rw [List.mem_singleton] at hmem
      subst hmem
      exact ⟨hl rfl, rfl⟩

theorem sentByLeader_sendAppendEntries {t : Task N C}
    (hl : (s.nodes t.node).leaderState.isSome = true → (s.nodes t.node).state = .leader) (k : ℕ) :
    SentByLeader s (s.sendAppendEntries cfg k t) := by
  unfold Cluster.sendAppendEntries
  split
  · exact sentByLeader_of_length rfl
  · exact sentByLeader_sendNext hl k _

theorem sentByLeader_sendReturns {t : Task N C}
    (hl : (s.nodes t.node).leaderState.isSome = true ↔ (s.nodes t.node).state = .leader) (k : ℕ)
    (o : RaftNode.Outgoing N C) (rest : List N) (response : Option (Message N Response)) :
    SentByLeader s (s.sendReturns cfg k t o rest response) := by
  unfold Cluster.sendReturns
  split
  · exact sentByLeader_of_length rfl
  · exact sentByLeader_of_length rfl
  · rename_i n heq
    rcases RaftNode.handleResponse_cases heq with ⟨-, ⟨-, hstate⟩, hsome⟩ | ⟨h, -⟩
    · refine sentByLeader_sendNext (s := s.setNode t.node n) (fun hn => ?_) k rest
      simp only [Cluster.setNode, Function.update_self] at hn ⊢
      rw [hsome] at hn
      rw [hstate]
      exact hl.mp hn
    · cases h

theorem sentByLeader_electionTimeout (i : N) (n : RaftNode N C) :
    SentByLeader s ((s.setNode i n).broadcastRequestVote cfg i) := by
  intro j r hj hr l p pt es lc hpay
  have hr : (s.rpcs ++ (cfg.getOtherNodes i).map fun target =>
      (⟨i, target, ((s.setNode i n).nodes i).requestVoteMessage i, .inFlight⟩ :
        Rpc N C))[j]? = some r := hr
  rw [List.getElem?_append_right hj] at hr
  obtain ⟨d, -, rfl⟩ := List.mem_map.mp (List.mem_of_getElem? hr)
  cases hpay

theorem length_rpcs_handle (s : Cluster N C) (j : ℕ) (r : Rpc N C) (now : ℚ) :
    (s.handle j r now).rpcs.length = s.rpcs.length := by
  unfold Cluster.handle
  split <;> simp [Cluster.setStage, Cluster.setNode]

theorem sentByLeader_step
    (hleads : ∀ t ∈ s.tasks,
      (s.nodes t.node).leaderState.isSome = true ↔ (s.nodes t.node).state = .leader)
    {a : Action N C} (h : s.step cfg a = some s') : SentByLeader s s' := by
  have hlead : ∀ {k : ℕ} {t : Task N C}, s.tasks[k]? = some t →
      ((s.nodes t.node).leaderState.isSome = true ↔ (s.nodes t.node).state = .leader) :=
    fun ht => hleads _ (List.mem_of_getElem? ht)
  cases Cluster.stepped h with
  | electionTimeout => exact sentByLeader_electionTimeout _ _
  | electionEnds =>
    refine sentByLeader_of_length ?_
    unfold Cluster.countVotes
    split <;> rfl
  | becameLeader => exact sentByLeader_of_length rfl
  | @propose i command hi hs =>
    refine sentByLeader_sendAppendEntries
      (s := (s.setNode i ((s.nodes i).appendCommand command)).spawn ⟨i, .propose, .looping⟩) ?_ _
    intro _
    simpa [Cluster.setNode, Cluster.spawn, RaftNode.appendCommand, RaftNode.saveState] using hs
  | heartbeat ht => exact sentByLeader_sendAppendEntries (hlead ht).mp _
  | heartbeatEnds => exact sentByLeader_of_length rfl
  | reply ht => exact sentByLeader_sendReturns (hlead ht) _ _ _ _
  | noReply ht => exact sentByLeader_sendReturns (hlead ht) _ _ _ _
  | resumeSending ht => exact sentByLeader_sendNext (hlead ht).mp _ _
  | resumeApplying => exact sentByLeader_of_length rfl
  | raise => exact sentByLeader_of_length rfl
  | deliver =>
    refine sentByLeader_of_length ?_
    unfold Cluster.deliver
    split
    · simp [Cluster.setStage, Cluster.setNode]
    · exact length_rpcs_handle s _ _ _
  | resumeHandling => exact sentByLeader_of_length (length_rpcs_handle s _ _ _)
  | resumeHandlerApplying =>
    refine sentByLeader_of_length ?_
    simp [Cluster.handlerApplied, Cluster.setStage, Cluster.setNode]
  | raiseHandler =>
    refine sentByLeader_of_length ?_
    simp [Cluster.setStage]
  | crash =>
    refine sentByLeader_of_length ?_
    simp [Cluster.restart, Cluster.setNode]
  | crashSaving =>
    refine sentByLeader_of_length ?_
    simp [Cluster.restart, Cluster.setNode]

end Pynchronize
