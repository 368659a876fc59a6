import Pynchronize.Raft.Trace

/-!
# Terms, votes and known leaders along a run

`termStep_step` lists what one step can do to the term, the vote, the role and
`current_leader` of a node, and `rpcStep_step` what it can do to an RPC. Crashes
of every kind are included.
-/

namespace Pynchronize

open Lib

variable {N C : Type*}

/-! ## One node -/

namespace RaftNode

/-- Term, vote, leadership and known leader stay. -/
structure Stays (n n' : RaftNode N C) : Prop where
  currentTerm : n'.persistent.currentTerm = n.persistent.currentTerm
  votedFor : n'.persistent.votedFor = n.persistent.votedFor
  currentLeader : n'.currentLeader = n.currentLeader
  leader : n'.state = .leader ↔ n.state = .leader
  leaderState : n'.leaderState.isSome = n.leaderState.isSome

/-- An AppendEntries of the node's own term is accepted. -/
structure Accepts (leaderId : N) (n n' : RaftNode N C) : Prop where
  currentTerm : n'.persistent.currentTerm = n.persistent.currentTerm
  votedFor : n'.persistent.votedFor = n.persistent.votedFor
  currentLeader : n'.currentLeader = some leaderId
  leader : n'.state = .leader ↔ n.state = .leader
  leaderState : n'.leaderState.isSome = n.leaderState.isSome

theorem Stays.refl (n : RaftNode N C) : Stays n n := ⟨rfl, rfl, rfl, Iff.rfl, rfl⟩

theorem Stays.trans {n n' n'' : RaftNode N C} (h : Stays n n') (h' : Stays n' n'') :
    Stays n n'' where
  currentTerm := h'.currentTerm.trans h.currentTerm
  votedFor := h'.votedFor.trans h.votedFor
  currentLeader := h'.currentLeader.trans h.currentLeader
  leader := h'.leader.trans h.leader
  leaderState := h'.leaderState.trans h.leaderState

theorem Accepts.stays {leaderId : N} {n n' n'' : RaftNode N C} (h : Accepts leaderId n n')
    (h' : Stays n' n'') : Accepts leaderId n n'' where
  currentTerm := h'.currentTerm.trans h.currentTerm
  votedFor := h'.votedFor.trans h.votedFor
  currentLeader := h'.currentLeader.trans h.currentLeader
  leader := h'.leader.trans h.leader
  leaderState := h'.leaderState.trans h.leaderState

theorem stays_withVolatile (n : RaftNode N C) (v : VolatileState) (calls : List (ℕ × C)) :
    Stays n (n.withVolatile v calls) := ⟨rfl, rfl, rfl, Iff.rfl, rfl⟩

theorem stays_applyCommitted (n : RaftNode N C) : Stays n n.applyCommitted.1 := by
  obtain ⟨a, calls, heq, -⟩ := n.applyCommitted_eq
  rw [heq]
  exact stays_withVolatile n _ _

theorem stays_tryCommit (cfg : Config N) (n : RaftNode N C) : Stays n (n.tryCommit cfg).1 := by
  rcases n.tryCommit_eq cfg with heq | ⟨ls, c, -, -, heq⟩
  · rw [heq]
    exact Stays.refl n
  · rw [heq]
    exact (stays_withVolatile n _ _).trans (stays_applyCommitted _)

theorem stays_followCommit (n : RaftNode N C) (leaderCommit : ℕ) :
    Stays n (n.followCommit leaderCommit).1 := by
  rcases n.followCommit_eq leaderCommit with heq | ⟨-, heq⟩
  · rw [heq]
    exact Stays.refl n
  · rw [heq]
    exact (stays_withVolatile n _ _).trans (stays_applyCommitted _)

theorem stays_mergeEntries (n : RaftNode N C) (entries : List (LogEntry C)) :
    Stays n (n.mergeEntries entries) := by
  unfold mergeEntries
  dsimp only
  split
  · exact ⟨rfl, rfl, rfl, Iff.rfl, rfl⟩
  · exact ⟨rfl, rfl, rfl, Iff.rfl, rfl⟩

theorem stays_foldl_collectVote [DecidableEq N] (n : RaftNode N C)
    (responses : List (N × Option (Message N Response))) :
    Stays n (responses.foldl collectVote n) := by
  obtain ⟨votes, heq, -⟩ := n.foldl_collectVote_eq responses
  rw [heq]
  exact ⟨rfl, rfl, rfl, Iff.rfl, rfl⟩

/-- A response is booked, or makes the node step down. -/
theorem stays_handleResponse [DecidableEq N] {n n' : RaftNode N C} {o : Outgoing N C}
    {response : Option (Message N Response)} {suspended : Bool}
    (h : n.handleResponse o response = some (n', suspended)) :
    (suspended = false ∧ Stays n n') ∨
      ∃ message, suspended = true ∧ response = some message ∧ message.payload.success = false ∧
        n.persistent.currentTerm < message.term ∧ n' = n.stepDown message.term := by
  cases responds h with
  | passes => exact Or.inl ⟨rfl, Stays.refl n⟩
  | books _ _ hls => exact Or.inl ⟨rfl, rfl, rfl, rfl, Iff.rfl, by rw [hls]; rfl⟩
  | backsOff hls => exact Or.inl ⟨rfl, rfl, rfl, rfl, Iff.rfl, by rw [hls]; rfl⟩
  | @stepsDown message hfail hlt => exact Or.inr ⟨message, rfl, rfl, hfail, hlt, rfl⟩

/-- A vote is granted to a candidate of the node's own term, or nothing happens. -/
theorem handleRequestVote_cases [DecidableEq N] (nodeId : N) (now : ℚ) (n : RaftNode N C)
    (term : ℕ) (candidateId : N) (lastLogIndex lastLogTerm : ℕ) :
    (n.handleRequestVote nodeId now term candidateId lastLogIndex lastLogTerm =
        (n, ⟨nodeId, n.persistent.currentTerm, .requestVoteResponse false⟩)) ∨
      n.persistent.currentTerm ≤ term ∧
      (n.persistent.votedFor = none ∨ n.persistent.votedFor = some candidateId) ∧
      n.handleRequestVote nodeId now term candidateId lastLogIndex lastLogTerm =
        ({ n with
            persistent := { n.persistent with votedFor := some candidateId }
            stateFile := some { n.persistent with votedFor := some candidateId }
            lastHeartbeat := now },
          ⟨nodeId, n.persistent.currentTerm, .requestVoteResponse true⟩) := by
  unfold handleRequestVote
  dsimp only
  split
  · rename_i h
    exact Or.inr ⟨h.1, h.2.1, rfl⟩
  · exact Or.inl rfl

/-- An AppendEntries of an older term is refused, any other one is accepted. -/
theorem handleAppendEntries_cases (nodeId : N) (now : ℚ) (n : RaftNode N C) (term : ℕ)
    (leaderId : N) (prevLogIndex prevLogTerm : ℕ) (entries : List (LogEntry C))
    (leaderCommit : ℕ) :
    (term < n.persistent.currentTerm ∧ Stays n (n.handleAppendEntries nodeId now term leaderId
        prevLogIndex prevLogTerm entries leaderCommit).1) ∨
      (n.persistent.currentTerm ≤ term ∧ Accepts leaderId n (n.handleAppendEntries nodeId now term
        leaderId prevLogIndex prevLogTerm entries leaderCommit).1) := by
  have hheard : Accepts leaderId n (n.heard now leaderId) := by
    refine ⟨rfl, rfl, rfl, ?_, rfl⟩
    dsimp only [heard]
    split
    · rename_i hs
      simp [hs]
    · exact Iff.rfl
  rcases Nat.lt_or_ge term n.persistent.currentTerm with hlt | hge
  · rw [handleAppendEntries_of_lt nodeId now n leaderId entries leaderCommit hlt]
    exact Or.inl ⟨hlt, rfl, rfl, rfl, Iff.rfl, rfl⟩
  · rw [handleAppendEntries_of_le nodeId now n leaderId entries leaderCommit hge]
    refine Or.inr ⟨hge, ?_⟩
    split
    · exact hheard.stays ((stays_mergeEntries _ _).trans (stays_followCommit _ _))
    · exact hheard

theorem payload_handleAppendEntries {nodeId : N} {now : ℚ} {n : RaftNode N C} {term : ℕ}
    {leaderId : N} {prevLogIndex prevLogTerm : ℕ} {entries : List (LogEntry C)} {leaderCommit : ℕ}
    {response : Message N Response} (h : (n.handleAppendEntries nodeId now term leaderId
      prevLogIndex prevLogTerm entries leaderCommit).2 = some response) :
    ∃ success, response.payload = .appendEntriesResponse success := by
  rcases Nat.lt_or_ge term n.persistent.currentTerm with hlt | hge
  · rw [handleAppendEntries_of_lt nodeId now n leaderId entries leaderCommit hlt] at h
    exact ⟨false, Option.some.inj h ▸ rfl⟩
  · rw [handleAppendEntries_of_le nodeId now n leaderId entries leaderCommit hge] at h
    split at h
    · dsimp only at h
      split at h
      · cases h
      · exact ⟨true, Option.some.inj h ▸ rfl⟩
    · exact ⟨false, Option.some.inj h ▸ rfl⟩

end RaftNode

/-! ## The nodes of the cluster -/

namespace Cluster

open RaftNode (Stays Accepts)

/-- What one step can do to the term, the vote, the role and the known leader of node `i`. -/
inductive TermStep [DecidableEq N] (s : Cluster N C) (a : Action N C) (i : N)
    (n' : RaftNode N C) : Prop
  | stays (h : Stays (s.nodes i) n')
  | stands (hs : (s.nodes i).state ≠ .leader) (heq : n' = { (s.nodes i).startElection i with
      electionTask := n'.electionTask })
  | wins (ht : n'.persistent.currentTerm = (s.nodes i).persistent.currentTerm)
      (hv : n'.persistent.votedFor = (s.nodes i).persistent.votedFor) (hs : n'.state = .leader)
      (hl : n'.currentLeader = some i) (hls : n'.leaderState.isSome = true)
  | votes {candidateId : N} {now : ℚ}
      (hfree : (s.nodes i).persistent.votedFor = none ∨
        (s.nodes i).persistent.votedFor = some candidateId)
      (heq : n' = { s.nodes i with
        persistent := { (s.nodes i).persistent with votedFor := some candidateId }
        stateFile := some { (s.nodes i).persistent with votedFor := some candidateId }
        lastHeartbeat := now })
  | accepts {r : Rpc N C} {leaderId : N} {prev prevTerm : ℕ} {entries : List (LogEntry C)}
      {leaderCommit : ℕ} (hr : r ∈ s.rpcs) (hdst : r.dst = i)
      (hst : r.stage = .steppingDown ∨
        r.message.term ≤ (s.nodes i).persistent.currentTerm)
      (hpay : r.message.payload = .appendEntries leaderId prev prevTerm entries leaderCommit)
      (hle : (s.nodes i).persistent.currentTerm ≤ r.message.term)
      (h : Accepts leaderId (s.nodes i) n')
  | stepsDownOnRequest {j : ℕ} {now : ℚ} {r : Rpc N C} (ha : a = .deliver j now)
      (hr : s.rpcs[j]? = some r) (hdst : r.dst = i) (hst : r.stage = .inFlight)
      (hlt : (s.nodes i).persistent.currentTerm < r.message.term)
      (heq : n' = (s.nodes i).stepDown r.message.term)
  | stepsDownOnResponse {k j : ℕ} {kind : TaskKind} {o : RaftNode.Outgoing N C} {rest : List N}
      {response : Message N Response} (ha : a = .reply k)
      (ht : s.tasks[k]? = some ⟨i, kind, .sending o j rest⟩)
      (hans : s.answerOf j = some response) (hfail : response.payload.success = false)
      (hlt : (s.nodes i).persistent.currentTerm < response.term)
      (heq : n' = (s.nodes i).stepDown response.term)
  | restarts {file : Option (PersistentState N C)} {now : ℚ} (heq : n' = RaftNode.boot file now)
      (hfile : file = (s.nodes i).stateFile ∨ a = .crashSaving i now)

variable [DecidableEq N] {cfg : Config N} {s s' : Cluster N C}

theorem SendsAs.stays {a : Action N C} {i : N} {m : RaftNode N C} (h : s.SendsAs a i m) :
    Stays (s.nodes i) m := by
  cases h with
  | unchanged => exact Stays.refl _
  | proposed => exact ⟨rfl, rfl, rfl, Iff.rfl, rfl⟩
  | answered _ _ _ heq =>
    rcases RaftNode.stays_handleResponse heq with ⟨-, hk⟩ | ⟨message, hf, -⟩
    · exact hk
    · cases hf

theorem termStep_step {a : Action N C} (h : s.step cfg a = some s') (i : N) :
    TermStep s a i (s'.nodes i) := by
  have hstep := nodeStep h i
  generalize s'.nodes i = n at hstep ⊢
  cases hstep with
  | idle => exact .stays (Stays.refl _)
  | stands hs => exact .stands hs rfl
  | loses responses =>
    have hk := RaftNode.stays_foldl_collectVote (s.nodes i) responses
    exact .stays ⟨hk.currentTerm, hk.votedFor, hk.currentLeader, hk.leader, hk.leaderState⟩
  | wins responses =>
    have hk := RaftNode.stays_foldl_collectVote (s.nodes i) responses
    exact .wins hk.currentTerm hk.votedFor rfl rfl rfl
  | startsHeartbeat => exact .stays ⟨rfl, rfl, rfl, Iff.rfl, rfl⟩
  | sends hm => exact .stays hm.stays
  | commits hm => exact .stays (hm.stays.trans (RaftNode.stays_tryCommit cfg _))
  | applies => exact .stays (RaftNode.stays_applyCommitted _)
  | stepsDownOnResponse ha ht hans heq =>
    rcases RaftNode.stays_handleResponse heq with ⟨hf, -⟩ | ⟨message, -, hm, hfail, hlt, rfl⟩
    · cases hf
    · obtain rfl := Option.some.inj hm
      exact .stepsDownOnResponse ha ht hans hfail hlt rfl
  | stepsDownOnRequest ha hr hdst hst hlt => exact .stepsDownOnRequest ha hr hdst hst hlt rfl
  | handlesRequestVote =>
    rcases RaftNode.handleRequestVote_cases i _ (s.nodes i) _ _ _ _ with heq | ⟨-, hfree, heq⟩
    · rw [heq]
      exact .stays (Stays.refl _)
    · rw [heq]
      exact .votes hfree rfl
  | @handlesAppendEntries j now r leaderId prev prevTerm entries leaderCommit hr hdst hst hpay =>
    rcases RaftNode.handleAppendEntries_cases i now (s.nodes i) r.message.term leaderId
      prev prevTerm entries leaderCommit with ⟨-, h⟩ | ⟨hle, h⟩
    · exact .stays h
    · have hstage : r.stage = .steppingDown ∨
          r.message.term ≤ (s.nodes i).persistent.currentTerm :=
        hst.imp And.left fun hin => hin.2.2
      exact .accepts (List.mem_of_getElem? hr) hdst hstage hpay hle h
  | restarts ha =>
    rcases ha with ⟨-, rfl⟩ | ⟨rfl, rfl⟩
    · exact .restarts rfl (Or.inl rfl)
    · exact .restarts rfl (Or.inr rfl)

/-! ## The RPCs of the cluster -/

/-- A request that its sender has just sent. -/
structure Sent (s' : Cluster N C) (r : Rpc N C) : Prop where
  stage : r.stage = .inFlight
  term : r.message.term = (s'.nodes r.src).persistent.currentTerm
  payload : match r.message.payload with
    | .requestVote candidateId _ _ => candidateId = r.src ∧ 0 < r.message.term
    | .appendEntries leaderId .. =>
      leaderId = r.src ∧ (s'.nodes r.src).leaderState.isSome = true

/-- Where an RPC of `s'` comes from: it was there, it is sent, its receiver steps down or answers a
    candidate, or its handler goes on in another way. -/
inductive RpcStep (s s' : Cluster N C) (r' : Rpc N C) : Prop
  | old (h : r' ∈ s.rpcs)
  | sent (h : Sent s' r')
  | stepsDown {r : Rpc N C} (hr : r ∈ s.rpcs)
      (hterm : (s'.nodes r.dst).persistent.currentTerm = r.message.term)
      (heq : r' = { r with stage := .steppingDown })
  | answers {r : Rpc N C} {candidateId : N} {lastLogIndex lastLogTerm : ℕ} {granted : Bool}
      (hr : r ∈ s.rpcs)
      (hst : r.stage = .steppingDown ∨ r.message.term ≤ (s.nodes r.dst).persistent.currentTerm)
      (hpay : r.message.payload = .requestVote candidateId lastLogIndex lastLogTerm)
      (hterm : (s'.nodes r.dst).persistent.currentTerm = (s.nodes r.dst).persistent.currentTerm)
      (hgranted : granted = true → (s.nodes r.dst).persistent.currentTerm ≤ r.message.term ∧
        (s'.nodes r.dst).persistent.votedFor = some candidateId ∧
        ((s.nodes r.dst).persistent.votedFor = none ∨
          (s.nodes r.dst).persistent.votedFor = some candidateId))
      (heq : r' = { r with stage := .answered ⟨r.dst, (s.nodes r.dst).persistent.currentTerm,
        .requestVoteResponse granted⟩ })
  | goesOn {r : Rpc N C} {stage : Stage N} (hr : r ∈ s.rpcs) (hst : stage ≠ .steppingDown)
      (hans : ∀ response, stage = .answered response →
        ∃ success, response.payload = .appendEntriesResponse success)
      (heq : r' = { r with stage := stage })

theorem sent_sendNext {k : ℕ} {t : Task N C} {rest : List N} {r : Rpc N C}
    (hr : r ∈ (s.sendNext cfg k t rest).rpcs) : r ∈ s.rpcs ∨ Sent (s.sendNext cfg k t rest) r := by
  cases rest with
  | nil => exact Or.inl hr
  | cons nodeId rest =>
    unfold sendNext at hr ⊢
    cases hls : (s.nodes t.node).leaderState with
    | none =>
      rw [hls] at hr
      exact Or.inl hr
    | some ls =>
      rw [hls] at hr
      rcases List.mem_append.mp hr with hold | hnew
      · exact Or.inl hold
      · obtain rfl := List.mem_singleton.mp hnew
        exact Or.inr ⟨rfl, rfl, rfl, by simp [setPc, post, hls]⟩

theorem sent_sendAppendEntries {k : ℕ} {t : Task N C} {r : Rpc N C}
    (hr : r ∈ (s.sendAppendEntries cfg k t).rpcs) :
    r ∈ s.rpcs ∨ Sent (s.sendAppendEntries cfg k t) r := by
  unfold sendAppendEntries at hr ⊢
  split at hr
  · exact Or.inl hr
  · rename_i hlead
    rw [if_neg hlead]
    exact sent_sendNext hr

theorem sent_sendReturns {k : ℕ} {t : Task N C} {o : RaftNode.Outgoing N C} {rest : List N}
    {response : Option (Message N Response)} {r : Rpc N C}
    (hr : r ∈ (s.sendReturns cfg k t o rest response).rpcs) :
    r ∈ s.rpcs ∨ Sent (s.sendReturns cfg k t o rest response) r := by
  unfold sendReturns at hr ⊢
  split at hr
  · exact Or.inl hr
  · exact Or.inl hr
  · exact sent_sendNext (s := s.setNode t.node _) hr

theorem rpcStep_handle {j : ℕ} {r : Rpc N C} (hr : s.rpcs[j]? = some r)
    (hst : r.stage = .steppingDown ∨ r.message.term ≤ (s.nodes r.dst).persistent.currentTerm)
    (now : ℚ) {r' : Rpc N C} (hr' : r' ∈ (s.handle j r now).rpcs) :
    RpcStep s (s.handle j r now) r' := by
  have hmem := List.mem_of_getElem? hr
  unfold handle at hr' ⊢
  split at hr'
  · rename_i candidateId lastLogIndex lastLogTerm hpay
    have hnode := nodes_setNode_self s r.dst ((s.nodes r.dst).handleRequestVote r.dst now
      r.message.term candidateId lastLogIndex lastLogTerm).1
    have hterm := congrArg (fun n : RaftNode N C => n.persistent.currentTerm) hnode
    have hvote := congrArg (fun n : RaftNode N C => n.persistent.votedFor) hnode
    rcases List.mem_or_eq_of_mem_set hr' with hold | rfl
    · exact .old hold
    · dsimp only
      rcases RaftNode.handleRequestVote_cases r.dst now (s.nodes r.dst) r.message.term candidateId
        lastLogIndex lastLogTerm with heq | ⟨hle, hfree, heq⟩
      · rw [heq] at hterm ⊢
        refine .answers hmem hst hpay hterm ?_ rfl
        exact fun h => by cases h
      · rw [heq] at hterm hvote ⊢
        refine .answers hmem hst hpay hterm ?_ rfl
        exact fun _ => ⟨hle, hvote, hfree⟩
  · rename_i leaderId prev prevTerm entries leaderCommit hpay
    rcases List.mem_or_eq_of_mem_set hr' with hold | rfl
    · exact .old hold
    · refine .goesOn hmem ?_ (fun response hans => ?_) rfl
      · split
        · exact fun h => by cases h
        · exact fun h => by cases h
      · split at hans
        · rename_i answer hanswer
          obtain rfl := Stage.answered.inj hans
          exact RaftNode.payload_handleAppendEntries hanswer
        · cases hans

theorem rpcStep_dropHandler {i : N} {r' : Rpc N C} (hr' : r' ∈ s.rpcs.map (dropHandler i)) :
    RpcStep s s' r' := by
  obtain ⟨r, hr, rfl⟩ := List.mem_map.mp hr'
  have hlost : RpcStep s s' { r with stage := .lost } :=
    .goesOn hr (fun h => by cases h) (fun _ h => by cases h) rfl
  unfold dropHandler
  split
  · split
    · exact hlost
    · exact .old hr
  · split
    · exact hlost
    · exact .old hr
  · exact .old hr

theorem rpcStep_step {a : Action N C} (h : s.step cfg a = some s') {r' : Rpc N C}
    (hr' : r' ∈ s'.rpcs) : RpcStep s s' r' := by
  have sent : ∀ {t : Cluster N C}, (r' ∈ s.rpcs ∨ Sent t r') → t = s' → RpcStep s s' r' := by
    rintro t (hold | hnew) rfl
    · exact .old hold
    · exact .sent hnew
  cases stepped h with
  | @electionTimeout i =>
    rcases List.mem_append.mp hr' with hold | hnew
    · exact .old hold
    · obtain ⟨d, -, rfl⟩ := List.mem_map.mp hnew
      refine .sent ⟨rfl, ?_, ?_⟩
      · simp [broadcastRequestVote, setNode, RaftNode.requestVoteMessage]
      · simp [setNode, RaftNode.requestVoteMessage, RaftNode.startElection, RaftNode.saveState]
  | electionEnds =>
    unfold countVotes at hr'
    split at hr'
    · exact .old hr'
    · exact .old hr'
  | becameLeader => exact .old hr'
  | @propose i command =>
    exact sent (sent_sendAppendEntries (s := (s.setNode i _).spawn ⟨i, .propose, .looping⟩) hr') rfl
  | heartbeat => exact sent (sent_sendAppendEntries hr') rfl
  | heartbeatEnds => exact .old hr'
  | reply => exact sent (sent_sendReturns hr') rfl
  | noReply => exact sent (sent_sendReturns hr') rfl
  | resumeSending => exact sent (sent_sendNext hr') rfl
  | resumeApplying => exact .old hr'
  | raise => exact .old hr'
  | @deliver j now r hr hst =>
    unfold deliver at hr' ⊢
    split at hr'
    · rename_i hlt
      rw [if_pos hlt]
      rcases List.mem_or_eq_of_mem_set hr' with hold | rfl
      · exact .old hold
      · refine .stepsDown (List.mem_of_getElem? hr) ?_ rfl
        show ((s.setNode r.dst _).nodes r.dst).persistent.currentTerm = _
        rw [nodes_setNode_self]
        rfl
    · rename_i hle
      rw [if_neg hle]
      exact rpcStep_handle hr (Or.inr (Nat.le_of_not_lt hle)) now hr'
  | resumeHandling hr hst => exact rpcStep_handle hr (Or.inl hst) _ hr'
  | @resumeHandlerApplying j now r hr hst =>
    have hmem := List.mem_of_getElem? hr
    rcases List.mem_or_eq_of_mem_set hr' with hold | rfl
    · exact .old hold
    · refine .goesOn hmem ?_ (fun response hans => ?_) rfl
      · split
        · exact fun h => by cases h
        · exact fun h => by cases h
      · split at hans
        · cases hans
        · obtain rfl := Stage.answered.inj hans
          exact ⟨true, rfl⟩
  | raiseHandler hr =>
    rcases List.mem_or_eq_of_mem_set hr' with hold | rfl
    · exact .old hold
    · exact .goesOn (List.mem_of_getElem? hr) (fun h => by cases h) (fun _ h => by cases h) rfl
  | crash => exact rpcStep_dropHandler hr'
  | crashSaving => exact rpcStep_dropHandler hr'

omit [DecidableEq N] in
/-- What an RPC of `s'` asks was asked before, or has just been sent. -/
theorem RpcStep.request {r' : Rpc N C} (h : RpcStep s s' r') :
    (∃ r ∈ s.rpcs, r.request = r'.request) ∨ Sent s' r' := by
  cases h with
  | old h => exact Or.inl ⟨r', h, rfl⟩
  | sent h => exact Or.inr h
  | stepsDown hr _ heq => exact Or.inl ⟨_, hr, heq ▸ rfl⟩
  | answers hr _ _ _ _ heq => exact Or.inl ⟨_, hr, heq ▸ rfl⟩
  | goesOn hr _ _ heq => exact Or.inl ⟨_, hr, heq ▸ rfl⟩

theorem dropHandler_request (i : N) (r : Rpc N C) : (dropHandler i r).request = r.request := by
  unfold dropHandler
  split
  · split <;> rfl
  · split <;> rfl
  · rfl

theorem dropHandler_of_ne {i : N} {r : Rpc N C} (h : r.dst ≠ i) : dropHandler i r = r := by
  unfold dropHandler
  split
  · rw [if_neg h]
  · rw [if_neg h]
  · rfl

/-- Every RPC keeps its place and what it asks, and keeps its stage unless `i` receives it. -/
def KeepsRpcs (i : Option N) (rpcs rpcs' : List (Rpc N C)) : Prop :=
  ∀ (j : ℕ) r, rpcs[j]? = some r →
    ∃ r', rpcs'[j]? = some r' ∧ r'.request = r.request ∧ (i ≠ some r.dst → r' = r)

omit [DecidableEq N] in
theorem KeepsRpcs.refl (i : Option N) (rpcs : List (Rpc N C)) : KeepsRpcs i rpcs rpcs :=
  fun _ r hr => ⟨r, hr, rfl, fun _ => rfl⟩

omit [DecidableEq N] in
theorem keepsRpcs_append (i : Option N) (rpcs more : List (Rpc N C)) :
    KeepsRpcs i rpcs (rpcs ++ more) := by
  intro j r hr
  exact ⟨r, getElem?_append_of_some hr _, rfl, fun _ => rfl⟩

omit [DecidableEq N] in
theorem keepsRpcs_set {rpcs : List (Rpc N C)} {j : ℕ} {r : Rpc N C} (hr : rpcs[j]? = some r)
    (stage : Stage N) : KeepsRpcs (some r.dst) rpcs (rpcs.set j { r with stage := stage }) := by
  intro j' r' hr'
  rcases eq_or_ne j j' with rfl | hne
  · obtain rfl := Option.some.inj (hr.symm.trans hr')
    exact ⟨_, getElem?_set_of_some hr _, rfl, fun h => absurd rfl h⟩
  · exact ⟨r', (List.getElem?_set_ne hne).trans hr', rfl, fun _ => rfl⟩

theorem keepsRpcs_dropHandler (i : N) (rpcs : List (Rpc N C)) :
    KeepsRpcs (some i) rpcs (rpcs.map (dropHandler i)) := by
  intro j r hr
  refine ⟨dropHandler i r, by rw [List.getElem?_map, hr]; rfl, dropHandler_request i r, ?_⟩
  exact fun hne => dropHandler_of_ne fun heq => hne (congrArg some heq.symm)

theorem keepsRpcs_sendNext (i : Option N) (s : Cluster N C) (k : ℕ) (t : Task N C)
    (rest : List N) : KeepsRpcs i s.rpcs (s.sendNext cfg k t rest).rpcs := by
  cases rest with
  | nil => exact KeepsRpcs.refl i s.rpcs
  | cons nodeId rest =>
    unfold sendNext
    cases (s.nodes t.node).leaderState with
    | none => exact KeepsRpcs.refl i s.rpcs
    | some ls => exact keepsRpcs_append i s.rpcs _

theorem keepsRpcs_sendAppendEntries (i : Option N) (s : Cluster N C) (k : ℕ) (t : Task N C) :
    KeepsRpcs i s.rpcs (s.sendAppendEntries cfg k t).rpcs := by
  unfold sendAppendEntries
  split
  · exact KeepsRpcs.refl i s.rpcs
  · exact keepsRpcs_sendNext i s k t _

theorem keepsRpcs_sendReturns (i : Option N) (s : Cluster N C) (k : ℕ) (t : Task N C)
    (o : RaftNode.Outgoing N C) (rest : List N) (response : Option (Message N Response)) :
    KeepsRpcs i s.rpcs (s.sendReturns cfg k t o rest response).rpcs := by
  unfold sendReturns
  split
  · exact KeepsRpcs.refl i s.rpcs
  · exact KeepsRpcs.refl i s.rpcs
  · exact keepsRpcs_sendNext i (s.setNode t.node _) k t rest

theorem keepsRpcs_handle {j : ℕ} {r : Rpc N C} (hr : s.rpcs[j]? = some r) (now : ℚ) :
    KeepsRpcs (some r.dst) s.rpcs (s.handle j r now).rpcs := by
  unfold handle
  split
  · exact keepsRpcs_set hr _
  · exact keepsRpcs_set hr _

theorem keepsRpcs_step {a : Action N C} (h : s.step cfg a = some s') :
    KeepsRpcs (s.actor a) s.rpcs s'.rpcs := by
  have receives : ∀ {j : ℕ} {r : Rpc N C}, s.rpcs[j]? = some r →
      (s.rpcs[j]?).map Rpc.dst = some r.dst := by
    intro j r hr
    rw [hr]
    rfl
  cases stepped h with
  | electionTimeout => exact keepsRpcs_append _ _ _
  | electionEnds =>
    unfold countVotes
    split
    · exact KeepsRpcs.refl _ _
    · exact KeepsRpcs.refl _ _
  | becameLeader => exact KeepsRpcs.refl _ _
  | @propose i command =>
    exact keepsRpcs_sendAppendEntries _ ((s.setNode i _).spawn ⟨i, .propose, .looping⟩) _ _
  | heartbeat => exact keepsRpcs_sendAppendEntries _ s _ _
  | heartbeatEnds => exact KeepsRpcs.refl _ _
  | reply => exact keepsRpcs_sendReturns _ s _ _ _ _ _
  | noReply => exact keepsRpcs_sendReturns _ s _ _ _ _ _
  | resumeSending => exact keepsRpcs_sendNext _ s _ _ _
  | resumeApplying => exact KeepsRpcs.refl _ _
  | raise => exact KeepsRpcs.refl _ _
  | @deliver j now r hr =>
    show KeepsRpcs ((s.rpcs[j]?).map Rpc.dst) _ _
    rw [receives hr]
    unfold deliver
    split
    · exact keepsRpcs_set hr _
    · exact keepsRpcs_handle hr now
  | @resumeHandling j now r hr =>
    show KeepsRpcs ((s.rpcs[j]?).map Rpc.dst) _ _
    rw [receives hr]
    exact keepsRpcs_handle hr now
  | @resumeHandlerApplying j now r hr =>
    show KeepsRpcs ((s.rpcs[j]?).map Rpc.dst) _ _
    rw [receives hr]
    exact keepsRpcs_set hr _
  | @raiseHandler j r hr =>
    show KeepsRpcs ((s.rpcs[j]?).map Rpc.dst) _ _
    rw [receives hr]
    exact keepsRpcs_set hr _
  | crash => exact keepsRpcs_dropHandler _ _
  | crashSaving => exact keepsRpcs_dropHandler _ _

end Cluster

end Pynchronize
