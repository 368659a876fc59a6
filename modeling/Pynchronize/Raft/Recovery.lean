import Mathlib.Algebra.Order.BigOperators.Group.List
import Mathlib.Algebra.Order.Group.Nat
import Mathlib.Data.Prod.Lex
import Mathlib.Data.Finset.Max
import Pynchronize.Raft.Rounds
import Pynchronize.Raft.Safety

/-!
# No state is a dead end

Whatever has happened to a cluster, a majority of its nodes can be restarted and
go on alone: the one with the most up-to-date log wins an election, and what it
proposes then is committed (`recovers`). The run is put together from restarts
(`crashes_run`), lost elections that raise the term (`lost_run`), an election
that all nodes of the majority grant (`election_run`), and the rounds of
`Raft.Rounds`.
-/

namespace Pynchronize

open Lib

variable {N C : Type*} [DecidableEq N]

namespace Cluster

variable {cfg : Config N}

/-! ## Restarts -/

theorem crashes_run (now : ℚ) {M : List N} (hM : M.Nodup) (hsub : ∀ i ∈ M, i ∈ cfg.nodes)
    (s : Cluster N C) :
    ∃ s', s.run cfg (M.map fun i => .crash i now) = some s' ∧
      (∀ i ∈ M, s'.nodes i = RaftNode.boot (s.nodes i).stateFile now) ∧
      ∀ i ∉ M, s'.nodes i = s.nodes i := by
  induction M generalizing s with
  | nil => exact ⟨s, rfl, List.forall_mem_nil _, fun i _ => rfl⟩
  | cons d rest ih =>
    obtain ⟨hd, hrest⟩ := List.nodup_cons.mp hM
    have hstep : s.step cfg (.crash d now) = some (s.restart d (s.nodes d).stateFile now) :=
      if_pos (hsub d (List.mem_cons_self ..))
    obtain ⟨s', hrun, hin, hout⟩ := ih hrest (fun i hi => hsub i (List.mem_cons_of_mem _ hi))
      (s.restart d (s.nodes d).stateFile now)
    refine ⟨s', (Transition.run_of_step hstep _).trans hrun, fun i hi => ?_, fun i hi => ?_⟩
    · rcases List.mem_cons.mp hi with rfl | hi
      · rw [hout i hd, nodes_restart_self]
      · have hne : i ≠ d := ne_of_mem_of_not_mem hi hd
        rw [hin i hi, nodes_restart_of_ne s hne]
    · have hne : i ≠ d := fun heq => hi (heq ▸ List.mem_cons_self ..)
      rw [hout i fun hmem => hi (List.mem_cons_of_mem _ hmem), nodes_restart_of_ne s hne]

/-! ## Elections -/

/-- A node that may start an election. -/
structure Idle (n : RaftNode N C) : Prop where
  state : n.state ≠ .leader
  task : n.electionTask = .sleeping
  ok : n.CommitOk

/-- Node `j` has started an election and waits for the answers. -/
def canvassing (cfg : Config N) (s : Cluster N C) (j : N) : Cluster N C :=
  (s.setNode j ((s.nodes j).startElection j)).broadcastRequestVote cfg j

theorem canvass_step {s : Cluster N C} {j : N} (hj : j ∈ cfg.nodes) (h : Idle (s.nodes j))
    (htimeout : cfg.electionTimeoutMin ≤ cfg.electionTimeoutMax) :
    ∃ a, a.crashFree = true ∧ s.step cfg a = some (s.canvassing cfg j) := by
  refine ⟨.electionTimeout j ((cfg.electionTimeoutMin : ℚ) / 1000)
    ((s.nodes j).lastHeartbeat + (cfg.electionTimeoutMin : ℚ) / 1000), rfl, ?_⟩
  have hmax : (cfg.electionTimeoutMin : ℚ) / 1000 ≤ (cfg.electionTimeoutMax : ℚ) / 1000 :=
    div_le_div_of_nonneg_right (by exact_mod_cast htimeout) (by decide)
  simp [step, h.task, hj, h.state, hmax, canvassing]

variable (cfg) in
theorem nodes_canvassing_self (s : Cluster N C) (j : N) : (s.canvassing cfg j).nodes j =
    { (s.nodes j).startElection j with
      electionTask := .broadcasting ((cfg.getOtherNodes j).zipIdx s.rpcs.length) } := by
  have hself : (s.setNode j ((s.nodes j).startElection j)).nodes j =
      (s.nodes j).startElection j := nodes_setNode_self s j _
  show Function.update _ j _ j = _
  rw [Function.update_self, hself]
  rfl

variable (cfg) in
theorem nodes_canvassing_of_ne (s : Cluster N C) {i j : N} (h : i ≠ j) :
    (s.canvassing cfg j).nodes i = s.nodes i := by
  show Function.update (Function.update s.nodes j _) j _ i = _
  rw [Function.update_of_ne h, Function.update_of_ne h]

/-- An election without any answer raises the term, and that is all. -/
theorem lost_run {s : Cluster N C} {j : N} (hj : j ∈ cfg.nodes) (h : Idle (s.nodes j))
    (htimeout : cfg.electionTimeoutMin ≤ cfg.electionTimeoutMax) (hmajority : 1 < cfg.getMajority) :
    ∃ acts s', (∀ a ∈ acts, a.crashFree = true) ∧ s.run cfg acts = some s' ∧
      Idle (s'.nodes j) ∧ (s'.nodes j).persistent.log = (s.nodes j).persistent.log ∧
      (s'.nodes j).persistent.currentTerm = (s.nodes j).persistent.currentTerm + 1 ∧
      ∀ i ≠ j, s'.nodes i = s.nodes i := by
  obtain ⟨a, ha, hstep⟩ := canvass_step hj h htimeout
  have hself := nodes_canvassing_self cfg s j
  have hothers : ∀ i ≠ j, (s.canvassing cfg j).nodes i = s.nodes i := fun i hi =>
    nodes_canvassing_of_ne cfg s hi
  generalize s.canvassing cfg j = t at hstep hself hothers
  generalize (cfg.getOtherNodes j).zipIdx s.rpcs.length = sends at hself
  -- no answer comes, so the only vote is the own one
  obtain ⟨votes, hvotes, -, hnone⟩ :=
    RaftNode.foldl_collectVote_eq (t.nodes j) (t.responses sends [])
  have hvotes' : votes = Dict.empty.set j true := by
    refine (hnone fun response hr => ?_).trans (by rw [hself]; rfl)
    obtain ⟨send, -, rfl⟩ := List.mem_map.mp hr
    rfl
  have hcount : t.countVotes cfg j ((t.responses sends []).foldl RaftNode.collectVote (t.nodes j)) =
      t.setNode j { t.nodes j with votesReceived := votes, electionTask := .sleeping } := by
    rw [hvotes]
    unfold countVotes
    rw [if_neg]
    rintro ⟨hle, -⟩
    rw [hvotes'] at hle
    exact absurd hle (Nat.not_le.mpr hmajority)
  have hends : t.step cfg (.electionEnds j []) =
      some (t.setNode j { t.nodes j with votesReceived := votes, electionTask := .sleeping }) := by
    have htask : (t.nodes j).electionTask = .broadcasting sends := by rw [hself]
    simp only [step, htask, if_pos hj]
    exact congrArg some hcount
  have hnode := nodes_setNode_self t j
    { t.nodes j with votesReceived := votes, electionTask := .sleeping }
  refine ⟨[a, .electionEnds j []], _,
    List.forall_mem_cons.mpr ⟨ha, List.forall_mem_singleton.mpr rfl⟩,
    (Transition.run_of_step hstep _).trans (Transition.run_single hends), ?_, ?_, ?_,
    fun i hi => ?_⟩
  · rw [hnode, hself]
    refine ⟨fun hl => ?_, rfl, RaftNode.Advances.ok (n := s.nodes j) (h.ok.of_eq rfl rfl rfl)⟩
    cases hl
  · rw [hnode, hself]
    rfl
  · rw [hnode, hself]
    rfl
  · exact (Function.update_of_ne hi _ _).trans (hothers i hi)

/-- The term is raised by `k`. -/
theorem losts_run {j : N} (hj : j ∈ cfg.nodes)
    (htimeout : cfg.electionTimeoutMin ≤ cfg.electionTimeoutMax) (hmajority : 1 < cfg.getMajority)
    (k : ℕ) {s : Cluster N C} (h : Idle (s.nodes j)) :
    ∃ acts s', (∀ a ∈ acts, a.crashFree = true) ∧ s.run cfg acts = some s' ∧
      Idle (s'.nodes j) ∧ (s'.nodes j).persistent.log = (s.nodes j).persistent.log ∧
      (s'.nodes j).persistent.currentTerm = (s.nodes j).persistent.currentTerm + k ∧
      ∀ i ≠ j, s'.nodes i = s.nodes i := by
  induction k generalizing s with
  | zero => exact ⟨[], s, List.forall_mem_nil _, rfl, h, rfl, rfl, fun _ _ => rfl⟩
  | succ k ih =>
    obtain ⟨acts, t, hfree, hrun, hidle, hlog, hterm, hothers⟩ := lost_run hj h htimeout hmajority
    obtain ⟨more, s', hfree', hrun', hidle', hlog', hterm', hothers'⟩ := ih hidle
    exact ⟨acts ++ more, s', List.forall_mem_append.mpr ⟨hfree, hfree'⟩,
      (Transition.run_append_of_run hrun more).trans hrun', hidle', hlog'.trans hlog, by omega,
      fun i hi => (hothers' i hi).trans (hothers i hi)⟩

/-- A node of an earlier term whose log is no more up to date grants its vote. -/
theorem granted_of_upToDate {n : RaftNode N C} (d j : N) (now : ℚ) {T lastIndex lastTerm : ℕ}
    (hterm : n.persistent.currentTerm < T)
    (hlog : lastTerm > n.getLastLogTerm ∨
      lastTerm = n.getLastLogTerm ∧ lastIndex ≥ n.getLastLogIndex) :
    let result := n.answer d now ⟨j, T, .requestVote j lastIndex lastTerm⟩
    result.2.payload.voteGranted = true ∧ result.1.persistent.currentTerm = T ∧
      result.1.persistent.log = n.persistent.log := by
  have hresult : n.answer d now ⟨j, T, .requestVote j lastIndex lastTerm⟩ =
      ({ ({ n.stepDown T with persistent :=
          { (n.stepDown T).persistent with votedFor := some j } } : RaftNode N C).saveState with
          lastHeartbeat := now }, ⟨d, T, .requestVoteResponse true⟩) := by
    unfold RaftNode.answer RaftNode.afterTermCheck
    rw [if_pos hterm]
    show (n.stepDown T).handleRequestVote d now T j lastIndex lastTerm = _
    unfold RaftNode.handleRequestVote
    dsimp only
    rw [if_pos ⟨le_rfl, Or.inl rfl, hlog⟩]
    rfl
  rw [hresult]
  exact ⟨rfl, rfl, rfl⟩

variable (cfg) in
/-- The requests of an election in `sends` are answered one after another. -/
theorem grants_run (now : ℚ) {j : N} {T lastIndex lastTerm : ℕ} {sends : List (N × ℕ)}
    (hdst : (sends.map Prod.fst).Nodup) (hrpc : (sends.map Prod.snd).Nodup) {s : Cluster N C}
    (hsent : ∀ x ∈ sends, s.rpcs[x.2]? =
      some ⟨j, x.1, ⟨j, T, .requestVote j lastIndex lastTerm⟩, .inFlight⟩)
    (hbehind : ∀ x ∈ sends, (s.nodes x.1).persistent.currentTerm < T ∧
      (lastTerm > (s.nodes x.1).getLastLogTerm ∨ lastTerm = (s.nodes x.1).getLastLogTerm ∧
        lastIndex ≥ (s.nodes x.1).getLastLogIndex)) :
    ∃ acts s', (∀ a ∈ acts, a.crashFree = true) ∧ s.run cfg acts = some s' ∧
      (∀ x ∈ sends, (∃ response, s'.answerOf x.2 = some response ∧
          response.payload.voteGranted = true) ∧
        (s'.nodes x.1).persistent.currentTerm = T ∧
        (s'.nodes x.1).persistent.log = (s.nodes x.1).persistent.log) ∧
      (∀ i ∉ sends.map Prod.fst, s'.nodes i = s.nodes i) ∧
      (∀ q ∉ sends.map Prod.snd, s'.rpcs[q]? = s.rpcs[q]?) := by
  induction sends generalizing s with
  | nil =>
    exact ⟨[], s, List.forall_mem_nil _, rfl, List.forall_mem_nil _, fun _ _ => rfl,
      fun _ _ => rfl⟩
  | cons x rest ih =>
    obtain ⟨d, q⟩ := x
    obtain ⟨hd, hdst⟩ := List.nodup_cons.mp hdst
    obtain ⟨hq, hrpc⟩ := List.nodup_cons.mp hrpc
    have hr := hsent (d, q) (List.mem_cons_self ..)
    obtain ⟨acts, hfree, hrun⟩ := answer_run cfg hr rfl now
    obtain ⟨hterm, hlog⟩ := hbehind (d, q) (List.mem_cons_self ..)
    obtain ⟨hgranted, hterm', hlog'⟩ := granted_of_upToDate d j now hterm hlog
    generalize RaftNode.answer d now (s.nodes d) ⟨j, T, .requestVote j lastIndex lastTerm⟩ = result
      at hrun hgranted hterm' hlog'
    generalize ht : s.withHandler q ⟨j, d, ⟨j, T, .requestVote j lastIndex lastTerm⟩, .inFlight⟩
      result.1 (.answered result.2) = t at hrun
    have hnodes : t.nodes = Function.update s.nodes d result.1 := by rw [← ht]; rfl
    have hanswered : t.rpcs[q]? = some ⟨j, d, ⟨j, T, .requestVote j lastIndex lastTerm⟩,
        .answered result.2⟩ := by
      rw [← ht]
      exact getElem?_withHandler hr _ _
    have hrpcs : ∀ p ≠ q, t.rpcs[p]? = s.rpcs[p]? := by
      intro p hp
      rw [← ht]
      exact List.getElem?_set_ne hp.symm
    have hothers : ∀ i ≠ d, t.nodes i = s.nodes i := fun i hi => by
      rw [hnodes, Function.update_of_ne hi]
    have hd' : ∀ x ∈ rest, x.1 ≠ d := fun x hx heq =>
      hd (List.mem_map.mpr ⟨x, hx, heq⟩)
    have hq' : ∀ x ∈ rest, x.2 ≠ q := fun x hx heq =>
      hq (List.mem_map.mpr ⟨x, hx, heq⟩)
    obtain ⟨more, s', hfree', hrun', hvotes, hnodes', hrpcs'⟩ := ih hdst hrpc
      (fun x hx => (hrpcs _ (hq' x hx)).trans (hsent x (List.mem_cons_of_mem _ hx)))
      (fun x hx => by
        rw [hothers _ (hd' x hx)]
        exact hbehind x (List.mem_cons_of_mem _ hx))
    refine ⟨acts ++ more, s', List.forall_mem_append.mpr ⟨hfree, hfree'⟩,
      (Transition.run_append_of_run hrun more).trans hrun', fun x hx => ?_, fun i hi => ?_,
      fun p hp => ?_⟩
    · rcases List.mem_cons.mp hx with rfl | hx
      · have hself : s'.nodes d = result.1 := by
          rw [hnodes' d hd, hnodes, Function.update_self]
        refine ⟨⟨result.2, ?_, hgranted⟩, by rw [hself]; exact hterm', by rw [hself]; exact hlog'⟩
        unfold answerOf
        rw [hrpcs' q hq, hanswered]
      · obtain ⟨hvote, hterm, hlog⟩ := hvotes x hx
        exact ⟨hvote, hterm, hlog.trans (by rw [hothers _ (hd' x hx)])⟩
    · obtain ⟨hne, hrest⟩ := List.ne_and_not_mem_of_not_mem_cons hi
      exact (hnodes' i hrest).trans (hothers i hne)
    · obtain ⟨hne, hrest⟩ := List.ne_and_not_mem_of_not_mem_cons hp
      exact (hrpcs' p hrest).trans (hrpcs p hne)

variable (cfg) in
/-- The requests of the election wait to be delivered. -/
theorem sent_canvassing (s : Cluster N C) (j : N) {x : N × ℕ}
    (hx : x ∈ (cfg.getOtherNodes j).zipIdx s.rpcs.length) :
    (s.canvassing cfg j).rpcs[x.2]? = some ⟨j, x.1, ⟨j, (s.nodes j).persistent.currentTerm + 1,
      .requestVote j (s.nodes j).getLastLogIndex (s.nodes j).getLastLogTerm⟩, .inFlight⟩ := by
  have hself : (s.setNode j ((s.nodes j).startElection j)).nodes j =
      (s.nodes j).startElection j := nodes_setNode_self s j _
  obtain ⟨hle, hget⟩ := List.mk_mem_zipIdx_iff_le_and_getElem?_sub.mp hx
  show (s.rpcs ++ (cfg.getOtherNodes j).map _)[x.2]? = _
  rw [List.getElem?_append_right hle, List.getElem?_map, hget, hself]
  rfl

/-- A candidate with the votes of `M` leads when its `broadcast` returns. -/
theorem win_step {s : Cluster N C} {j : N} (hj : j ∈ cfg.nodes) {sends : List (N × ℕ)}
    (htask : (s.nodes j).electionTask = .broadcasting sends)
    (hcandidate : (s.nodes j).state = .candidate) (hown : j ∈ (s.nodes j).votesReceived.keys)
    {M : List N} (hM : M.Nodup) (hmajority : cfg.getMajority ≤ M.length)
    (hvotes : ∀ d ∈ M, d ≠ j → ∃ q response, (d, q) ∈ sends ∧ s.answerOf q = some response ∧
      response.payload.voteGranted = true) :
    ∃ votes, s.step cfg (.electionEnds j M) = some (s.setNode j
      { ({ s.nodes j with votesReceived := votes } : RaftNode N C).becomeLeader cfg j with
        electionTask := .becomingLeader }) := by
  obtain ⟨votes, heq, hvotes', -⟩ :=
    RaftNode.foldl_collectVote_eq (s.nodes j) (s.responses sends M)
  refine ⟨votes, ?_⟩
  have hall : M ⊆ votes.keys := by
    intro d hd
    rcases eq_or_ne d j with rfl | hne
    · exact (hvotes' d).mpr (Or.inr hown)
    · obtain ⟨q, response, hmem, hanswer, hgranted⟩ := hvotes d hd hne
      refine (hvotes' d).mpr (Or.inl ⟨response, List.mem_map.mpr ⟨(d, q), hmem, ?_⟩, hgranted⟩)
      dsimp only
      rw [if_pos hd, hanswer]
  have hcount := (hM.subperm hall).length_le
  simp only [step, htask, if_pos hj]
  unfold countVotes
  rw [heq, if_pos ⟨hmajority.trans hcount, hcandidate⟩]
  rfl

/-- The node leads, its heartbeat loop is about to send, and it knows of no entry of the others
    that they might not have. -/
structure Elected (cfg : Config N) (s : Cluster N C) (j : N) (log : List (LogEntry C)) (T k : ℕ)
    (ls : LeaderState N) : Prop where
  task : s.tasks[k]? = some ⟨j, .heartbeat, .looping⟩
  state : (s.nodes j).state = .leader
  leaderState : (s.nodes j).leaderState = some ls
  log : (s.nodes j).persistent.log = log
  term : (s.nodes j).persistent.currentTerm = T
  ok : (s.nodes j).CommitOk
  nextIndex : ∀ f ∈ cfg.getOtherNodes j,
    ls.nextIndex.get? f = some ((s.nodes j).getLastLogIndex + 1)

theorem get?_foldl_set_of_mem {V : Type*} {others : List N} {f : N} (x : V) (d : Dict N V)
    (hf : f ∈ others ∨ d.get? f = some x) :
    (others.foldl (fun d node => d.set node x) d).get? f = some x := by
  induction others generalizing d with
  | nil => exact hf.resolve_left List.not_mem_nil
  | cons a others ih =>
    refine ih (d.set a x) ?_
    rw [Dict.get?_set]
    rcases hf with hf | hd
    · rcases List.mem_cons.mp hf with rfl | hf
      · exact Or.inr (if_pos rfl)
      · exact Or.inl hf
    · right
      split
      · rfl
      · exact hd

theorem becameLeader_step {s : Cluster N C} {j : N} (hj : j ∈ cfg.nodes)
    (htask : (s.nodes j).electionTask = .becomingLeader) :
    ∃ s', s.step cfg (.becameLeader j) = some s' ∧
      s'.tasks[s.tasks.length]? = some ⟨j, .heartbeat, .looping⟩ ∧
      s'.nodes = Function.update s.nodes j { s.nodes j with
        electionTask := .sleeping, heartbeatTask := some s.tasks.length } := by
  refine ⟨s.startHeartbeat j, ?_, ?_, rfl⟩
  · simp only [step, htask, if_pos hj]
  · have hlen : ∀ tasks : List (Task N C), tasks.length = s.tasks.length →
        (tasks ++ [⟨j, .heartbeat, .looping⟩])[s.tasks.length]? =
          some (⟨j, .heartbeat, .looping⟩ : Task N C) := fun tasks h => by
      rw [← h, List.getElem?_concat_length]
    refine hlen _ ?_
    split
    · exact List.length_modify ..
    · rfl

/-- The candidate takes the votes of `M`, leads and starts its heartbeat loop. -/
theorem won_run {s : Cluster N C} {j : N} (hj : j ∈ cfg.nodes) {sends : List (N × ℕ)}
    (htask : (s.nodes j).electionTask = .broadcasting sends)
    (hcandidate : (s.nodes j).state = .candidate) (hown : j ∈ (s.nodes j).votesReceived.keys)
    (hok : (s.nodes j).CommitOk) {M : List N} (hM : M.Nodup)
    (hmajority : cfg.getMajority ≤ M.length)
    (hvotes : ∀ d ∈ M, d ≠ j → ∃ q response, (d, q) ∈ sends ∧ s.answerOf q = some response ∧
      response.payload.voteGranted = true) :
    ∃ s' k ls, s.run cfg [.electionEnds j M, .becameLeader j] = some s' ∧
      Elected cfg s' j (s.nodes j).persistent.log (s.nodes j).persistent.currentTerm k ls ∧
      ∀ i ≠ j, s'.nodes i = s.nodes i := by
  obtain ⟨votes, hwin⟩ := win_step hj htask hcandidate hown hM hmajority hvotes
  have hleader := nodes_setNode_self s j
    { ({ s.nodes j with votesReceived := votes } : RaftNode N C).becomeLeader cfg j with
      electionTask := .becomingLeader }
  generalize hw : s.setNode j { ({ s.nodes j with votesReceived := votes } :
    RaftNode N C).becomeLeader cfg j with electionTask := .becomingLeader } = w at hwin hleader
  have hothers : ∀ i ≠ j, w.nodes i = s.nodes i := fun i hi => by
    rw [← hw]
    exact Function.update_of_ne hi _ _
  obtain ⟨s', hbecame, hloop, hnodes⟩ := becameLeader_step hj
    (s := w) (by rw [hleader])
  have hself : s'.nodes j = _ := (congrFun hnodes j).trans (Function.update_self ..)
  rw [hleader] at hself
  refine ⟨s', w.tasks.length,
    { nextIndex := (cfg.getOtherNodes j).foldl
        (fun d node => d.set node ((s.nodes j).getLastLogIndex + 1)) Dict.empty
      matchIndex := (cfg.getOtherNodes j).foldl (fun d node => d.set node 0) Dict.empty },
    (Transition.run_of_step hwin _).trans (Transition.run_single hbecame), ?_, fun i hi => ?_⟩
  · refine ⟨hloop, by rw [hself]; rfl, by rw [hself]; rfl, by rw [hself]; rfl, by rw [hself]; rfl,
      ?_, fun f hf => ?_⟩
    · rw [hself]
      exact RaftNode.Advances.ok (n := s.nodes j) (hok.of_eq rfl rfl rfl)
    · rw [hself]
      exact get?_foldl_set_of_mem _ _ (Or.inl hf)
  · rw [hnodes, Function.update_of_ne hi, hothers i hi]

/-- Node `j` wins an election that all nodes of `M` grant. -/
theorem election_run (now : ℚ) {s : Cluster N C} {j : N} (h : Idle (s.nodes j))
    (htimeout : cfg.electionTimeoutMin ≤ cfg.electionTimeoutMax) {M : List N} (hM : M.Nodup)
    (hsub : ∀ d ∈ M, d ∈ cfg.nodes) (hj : j ∈ M) (hmajority : cfg.getMajority ≤ M.length)
    (hbehind : ∀ d ∈ M, d ≠ j →
      (s.nodes d).persistent.currentTerm ≤ (s.nodes j).persistent.currentTerm ∧
      ((s.nodes j).getLastLogTerm > (s.nodes d).getLastLogTerm ∨
        (s.nodes j).getLastLogTerm = (s.nodes d).getLastLogTerm ∧
          (s.nodes j).getLastLogIndex ≥ (s.nodes d).getLastLogIndex)) :
    ∃ acts s' k ls, (∀ a ∈ acts, a.crashFree = true) ∧ s.run cfg acts = some s' ∧
      Elected cfg s' j (s.nodes j).persistent.log ((s.nodes j).persistent.currentTerm + 1) k ls ∧
      (∀ d ∈ M, d ≠ j → (s'.nodes d).persistent.log = (s.nodes d).persistent.log ∧
        (s'.nodes d).persistent.currentTerm = (s.nodes j).persistent.currentTerm + 1) ∧
      ∀ i ∉ M, s'.nodes i = s.nodes i := by
  obtain ⟨a, ha, hstep⟩ := canvass_step (hsub j hj) h htimeout
  have hself := nodes_canvassing_self cfg s j
  have hsent := fun x => sent_canvassing cfg s j (x := x)
  have hothers : ∀ i ≠ j, (s.canvassing cfg j).nodes i = s.nodes i := fun i hi =>
    nodes_canvassing_of_ne cfg s hi
  generalize s.canvassing cfg j = t at hstep hself hothers hsent
  have hfst : ((cfg.getOtherNodes j).zipIdx s.rpcs.length).map Prod.fst = cfg.getOtherNodes j :=
    List.zipIdx_map_fst ..
  have hsnd : (((cfg.getOtherNodes j).zipIdx s.rpcs.length).map Prod.snd).Nodup := by
    rw [List.zipIdx_map_snd]
    exact List.nodup_range' ..
  generalize (cfg.getOtherNodes j).zipIdx s.rpcs.length = sends at hself hsent hfst hsnd
  -- the nodes of `M` answer
  have hmem : ∀ x ∈ sends.filter (·.1 ∈ M), x ∈ sends ∧ x.1 ∈ M ∧ x.1 ≠ j := by
    intro x hx
    obtain ⟨hx, hM⟩ := List.mem_filter.mp hx
    have hother : x.1 ∈ cfg.getOtherNodes j := hfst ▸ List.mem_map_of_mem hx
    exact ⟨hx, of_decide_eq_true hM, (Config.mem_getOtherNodes.mp hother).2⟩
  obtain ⟨acts, u, hfree, hrun, hvotes, hnodes, -⟩ := grants_run cfg now
    ((hfst ▸ cfg.nodup.filter _ : (sends.map Prod.fst).Nodup).sublist (List.filter_sublist.map _))
    (hsnd.sublist (List.filter_sublist.map _)) (s := t)
    (fun x hx => hsent x (hmem x hx).1)
    (fun x hx => by
      obtain ⟨-, hxM, hxj⟩ := hmem x hx
      rw [hothers _ hxj]
      exact ⟨Nat.lt_succ_of_le (hbehind _ hxM hxj).1, (hbehind _ hxM hxj).2⟩)
  have huj : u.nodes j = t.nodes j := hnodes j fun hj => by
    obtain ⟨x, hx, heq⟩ := List.mem_map.mp hj
    exact (hmem x hx).2.2 heq
  rw [hself] at huj
  have hfind : ∀ d ∈ M, d ≠ j → ∃ q, (d, q) ∈ sends.filter (·.1 ∈ M) := by
    intro d hd hne
    have hother : d ∈ sends.map Prod.fst :=
      hfst ▸ Config.mem_getOtherNodes.mpr ⟨hsub d hd, hne⟩
    obtain ⟨⟨d, q⟩, hx, rfl⟩ := List.mem_map.mp hother
    exact ⟨q, List.mem_filter.mpr ⟨hx, decide_eq_true hd⟩⟩
  -- the `broadcast` returns with their votes
  obtain ⟨s', k, ls, hwon, helected, hrest⟩ := won_run (s := u) (hsub j hj)
    (by rw [huj]) (by rw [huj]; rfl)
    (by rw [huj]; exact List.mem_singleton.mpr rfl)
    (by rw [huj]; exact RaftNode.Advances.ok (n := s.nodes j) (h.ok.of_eq rfl rfl rfl))
    hM hmajority (fun d hd hne => by
      obtain ⟨q, hq⟩ := hfind d hd hne
      obtain ⟨⟨response, hanswer, hgranted⟩, -⟩ := hvotes (d, q) hq
      exact ⟨q, response, (List.mem_filter.mp hq).1, hanswer, hgranted⟩)
  rw [huj] at helected
  refine ⟨a :: (acts ++ [.electionEnds j M, .becameLeader j]), s', k, ls,
    List.forall_mem_cons.mpr ⟨ha, List.forall_mem_append.mpr ⟨hfree, ?_⟩⟩, ?_, helected, ?_, ?_⟩
  · exact List.forall_mem_cons.mpr ⟨rfl, List.forall_mem_singleton.mpr rfl⟩
  · exact (Transition.run_of_step hstep _).trans ((Transition.run_append_of_run hrun _).trans hwon)
  · intro d hd hne
    obtain ⟨q, hq⟩ := hfind d hd hne
    obtain ⟨-, hterm, hlog⟩ := hvotes (d, q) hq
    rw [hrest d hne]
    exact ⟨hlog.trans (by rw [hothers d hne]), hterm⟩
  · intro i hi
    have hne : i ≠ j := (ne_of_mem_of_not_mem hj hi).symm
    rw [hrest i hne, hnodes i fun hmap => ?_, hothers i hne]
    obtain ⟨x, hx, rfl⟩ := List.mem_map.mp hmap
    exact hi (hmem x hx).2.1

/-! ## The first command of the term -/

/-- The leader has appended the command, and `propose` is about to send. -/
def appended (s : Cluster N C) (j : N) (command : C) : Cluster N C :=
  (s.setNode j ((s.nodes j).appendCommand command)).spawn ⟨j, .propose, .looping⟩

theorem nodes_appended_self (s : Cluster N C) (j : N) (command : C) :
    (s.appended j command).nodes j = (s.nodes j).appendCommand command := nodes_setNode_self s j _

theorem nodes_appended_of_ne (s : Cluster N C) {i j : N} (h : i ≠ j) (command : C) :
    (s.appended j command).nodes i = s.nodes i := nodes_setNode_of_ne s h _

section Elected

variable {s : Cluster N C} {j : N} {log : List (LogEntry C)} {T k : ℕ} {ls : LeaderState N}

theorem Elected.propose_step (h : Elected cfg s j log T k ls) (hj : j ∈ cfg.nodes) (command : C) :
    s.step cfg (.propose j command) = some ((s.appended j command).sendNext cfg s.tasks.length
      ⟨j, .propose, .looping⟩ (cfg.getOtherNodes j)) := by
  have hgo : ¬(((s.appended j command).nodes j).state ≠ .leader ∨
      ((s.appended j command).nodes j).leaderState.isNone) := by
    rw [nodes_appended_self]
    rintro (hs | hnone)
    · exact hs h.state
    · have hsome : ((s.nodes j).appendCommand command).leaderState = some ls := h.leaderState
      rw [hsome] at hnone
      cases hnone
  have hsend : s.step cfg (.propose j command) =
      some ((s.appended j command).sendAppendEntries cfg s.tasks.length
        ⟨j, .propose, .looping⟩) := if_pos ⟨hj, h.state⟩
  rw [hsend]
  exact congrArg some (if_neg hgo)

/-- The others are at most as many rounds behind as the log has entries. -/
theorem Elected.spreading (h : Elected cfg s j log T k ls) (hlog : Indexed log) (command : C)
    {M : List N} (hM : M.Nodup) (hsub : ∀ d ∈ M, d ∈ cfg.nodes)
    (hM' : ∀ d ∈ M, d ≠ j → (s.nodes d).persistent.currentTerm ≤ T ∧
      Matching (s.nodes d).persistent.log (log ++ [⟨T, log.length + 1, command⟩])) :
    Spreading cfg M hM j (log ++ [⟨T, log.length + 1, command⟩]) T (fun f =>
      if f ∈ cfg.getOtherNodes j then log.length + 1 + 1 else log.length + 1)
      (s.appended j command).nodes ls := by
  have huj := s.nodes_appended_self j command
  have hentry : (s.nodes j).newEntry command = ⟨T, log.length + 1, command⟩ := by
    unfold RaftNode.newEntry
    rw [h.log, h.term]
  refine ⟨⟨by rw [huj]; exact h.state, by rw [huj]; exact h.leaderState, ?_,
    by rw [huj]; exact h.term, fun d hd => ?_⟩, ?_, fun f hf hfj => Or.inr ?_⟩
  · rw [huj, ← hentry, ← h.log]
    rfl
  · obtain ⟨hd, hne⟩ := Config.mem_getOtherNodes.mp hd
    rw [s.nodes_appended_of_ne hne]
    exact (hM' d hd hne).1
  · rw [huj]
    exact (h.ok.appendCommand command).ok
  · have hother : f ∈ cfg.getOtherNodes j := Config.mem_getOtherNodes.mpr ⟨hsub f hf, hfj⟩
    have hnext := h.nextIndex f hother
    rw [RaftNode.getLastLogIndex_eq (h.log ▸ hlog), h.log] at hnext
    refine ⟨log.length + 1, hnext, by omega, ?_, ?_, ?_⟩
    · rw [List.length_append]
      exact Nat.le_refl _
    · rw [if_pos hother]
      omega
    · rw [s.nodes_appended_of_ne hfj]
      exact (hM' f hf hfj).2

/-- The leader proposes a command, and the nodes of `M` take its log over until it is committed. -/
theorem proposal_run (now : ℚ) (h : Elected cfg s j log T k ls) (hlog : Indexed log) (command : C)
    {M : List N} (hM : M.Nodup) (hsub : ∀ d ∈ M, d ∈ cfg.nodes) (hj : j ∈ M)
    (hmajority : cfg.getMajority ≤ M.length)
    (hM' : ∀ d ∈ M, d ≠ j → (s.nodes d).persistent.currentTerm ≤ T ∧
      Matching (s.nodes d).persistent.log (log ++ [⟨T, log.length + 1, command⟩])) :
    ∃ acts s' ls', (∀ a ∈ acts, a.crashFree = true) ∧ s.run cfg acts = some s' ∧
      Spreading cfg M hM j (log ++ [⟨T, log.length + 1, command⟩]) T (fun _ => 0) s'.nodes ls' ∧
      (∀ f ∉ M, s'.nodes f = s.nodes f) ∧
      (s'.nodes j).volatile.commitIndex = log.length + 1 ∧
      (s'.nodes j).volatile.lastApplied = log.length + 1 := by
  have hstep := h.propose_step (hsub j hj) command
  have hspread := h.spreading hlog command hM hsub hM'
  have hothers : ∀ i ≠ j, (s.appended j command).nodes i = s.nodes i := fun i hi =>
    s.nodes_appended_of_ne hi command
  have htasks : (s.appended j command).tasks = s.tasks ++ [⟨j, .propose, .looping⟩] := rfl
  generalize s.appended j command = u at hstep hspread hothers htasks
  generalize hL : log ++ [⟨T, log.length + 1, command⟩] = L at hspread ⊢
  have hlen : L.length = log.length + 1 := by rw [← hL, List.length_append]; rfl
  have hindexed : Indexed L := hL ▸ hlog.append rfl
  have hlast : L.getLast? = some ⟨T, log.length + 1, command⟩ := by
    rw [← hL]
    exact List.getLast?_concat ..
  have hk : s.tasks.length < u.tasks.length := by
    rw [htasks, List.length_append]
    exact Nat.lt_succ_self _
  -- the round of `propose`, and as many of the heartbeat loop as the log has entries
  obtain ⟨acts, t, ls', hfree, hrun, -, hkeep, hspread', hout, -⟩ := round_run now hj hindexed
    hmajority hlast rfl hk .propose .looping (cfg.nodup.filter _)
    (fun hmem => (Config.mem_getOtherNodes.mp hmem).2 rfl) (log.length + 1) hspread
  have hkt := (List.getElem?_eq_some_iff.mp h.task).1
  have hbeat : t.tasks[k]? = some ⟨j, .heartbeat, .looping⟩ := by
    rw [hkeep k hkt.ne, htasks, List.getElem?_append_left hkt]
    exact h.task
  obtain ⟨more, s', ls'', hfree', hrun', hspread'', hout', hcommit⟩ :=
    heartbeats_run now hj hsub hindexed hmajority hlast rfl log.length hbeat hspread'
  rw [hlen] at hcommit
  refine ⟨.propose j command :: (acts ++ more), s', ls'',
    List.forall_mem_cons.mpr ⟨rfl, List.forall_mem_append.mpr ⟨hfree, hfree'⟩⟩,
    (Transition.run_of_step hstep _).trans ((Transition.run_append_of_run hrun more).trans hrun'),
    hspread'', fun f hf => ?_, hcommit⟩
  rw [hout' f hf, hout f hf, hothers f (ne_of_mem_of_not_mem hj hf).symm]

end Elected

/-! ## Restarting a majority -/

/-- The nodes of `M` have been restarted since `s`, and have what they had saved. -/
structure Restarted (s t : Cluster N C) (M : List N) : Prop where
  idle : ∀ d ∈ M, Idle (t.nodes d)
  kept : ∀ d ∈ M, (t.nodes d).persistent = (s.nodes d).persistent
  others : ∀ i ∉ M, t.nodes i = s.nodes i

theorem restarts_run (now : ℚ) {s : Cluster N C} {M : List N} (hM : M.Nodup)
    (hsub : ∀ d ∈ M, d ∈ cfg.nodes)
    (hfile : ∀ d ∈ M, (s.nodes d).stateFile.getD {} = (s.nodes d).persistent) :
    ∃ t, s.run cfg (M.map fun d => .crash d now) = some t ∧ Restarted s t M := by
  obtain ⟨t, hcrash, hboot, hout⟩ := crashes_run now hM hsub s
  refine ⟨t, hcrash, fun d hd => ?_, fun d hd => ?_, hout⟩
  · rw [hboot d hd]
    exact ⟨RaftState.noConfusion, rfl, RaftNode.commitOk_boot _ _⟩
  · rw [hboot d hd]
    exact hfile d hd

/-- The term of `j` passes those of the other nodes of `M`. -/
theorem raise_run {j : N} {M : List N} (hsub : ∀ d ∈ M, d ∈ cfg.nodes) (hj : j ∈ M)
    (htimeout : cfg.electionTimeoutMin ≤ cfg.electionTimeoutMax) {s : Cluster N C}
    (h : Idle (s.nodes j)) :
    ∃ acts s', (∀ a ∈ acts, a.crashFree = true) ∧ s.run cfg acts = some s' ∧
      Idle (s'.nodes j) ∧ (s'.nodes j).persistent.log = (s.nodes j).persistent.log ∧
      (∀ d ∈ M, (s.nodes d).persistent.currentTerm ≤ (s'.nodes j).persistent.currentTerm) ∧
      ∀ i ≠ j, s'.nodes i = s.nodes i := by
  by_cases hone : 1 < cfg.getMajority
  · obtain ⟨acts, s', hfree, hrun, hidle, hlog, hterm, hothers⟩ := losts_run (hsub j hj) htimeout
      hone (M.map fun d => (s.nodes d).persistent.currentTerm).sum h
    refine ⟨acts, s', hfree, hrun, hidle, hlog, fun d hd => ?_, hothers⟩
    have hle := List.le_sum_of_mem
      (List.mem_map_of_mem (f := fun d => (s.nodes d).persistent.currentTerm) hd)
    omega
  · -- a node that is its own majority is the only one
    have hnodes : cfg.nodes.length ≤ 1 := by
      unfold Config.getMajority at hone
      omega
    refine ⟨[], s, List.forall_mem_nil _, rfl, h, rfl, fun d hd => ?_, fun _ _ => rfl⟩
    obtain ⟨x, hx⟩ := List.length_eq_one_iff.mp
      (Nat.le_antisymm hnodes (List.length_pos_of_mem (hsub j hj)))
    have hdx := hsub d hd
    have hjx := hsub j hj
    rw [hx] at hdx hjx
    rw [List.mem_singleton.mp hdx, List.mem_singleton.mp hjx]

omit [DecidableEq N] in
/-- Of some nodes one has the most up-to-date log. -/
theorem exists_upToDate (nodes : N → RaftNode N C) {M : List N} (hM : M ≠ []) :
    ∃ j ∈ M, ∀ d ∈ M, (nodes j).getLastLogTerm > (nodes d).getLastLogTerm ∨
      (nodes j).getLastLogTerm = (nodes d).getLastLogTerm ∧
        (nodes j).getLastLogIndex ≥ (nodes d).getLastLogIndex := by
  classical
  obtain ⟨d, hd⟩ := List.exists_mem_of_ne_nil M hM
  obtain ⟨j, hj, hmax⟩ := M.toFinset.exists_max_image
    (fun d => toLex ((nodes d).getLastLogTerm, (nodes d).getLastLogIndex))
    ⟨d, List.mem_toFinset.mpr hd⟩
  refine ⟨j, List.mem_toFinset.mp hj, fun d hd => ?_⟩
  have hle := hmax d (List.mem_toFinset.mpr hd)
  rw [Prod.Lex.le_iff] at hle
  exact hle.imp id fun h => ⟨h.1.symm, h.2⟩

/-- Node `j` leads in term `T`, which is later than those of `M` at `s`, and the nodes of `M` have
    come to it with the logs they had there. -/
structure Chosen (cfg : Config N) (s v : Cluster N C) (M : List N) (j : N) (T k : ℕ)
    (ls : LeaderState N) : Prop where
  elected : Elected cfg v j (s.nodes j).persistent.log T k ls
  later : ∀ d ∈ M, (s.nodes d).persistent.currentTerm < T
  log : ∀ d ∈ M, d ≠ j → (v.nodes d).persistent.log = (s.nodes d).persistent.log
  term : ∀ d ∈ M, d ≠ j → (v.nodes d).persistent.currentTerm = T
  others : ∀ i ∉ M, v.nodes i = s.nodes i

/-- A node with the most up-to-date log raises its term until it is elected. -/
theorem choice_run (now : ℚ) {s t : Cluster N C} {M : List N} (h : Restarted s t M)
    (htimeout : cfg.electionTimeoutMin ≤ cfg.electionTimeoutMax) (hM : M.Nodup)
    (hsub : ∀ d ∈ M, d ∈ cfg.nodes) (hmajority : cfg.getMajority ≤ M.length) :
    ∃ acts v, ∃ j ∈ M, ∃ T k ls, (∀ a ∈ acts, a.crashFree = true) ∧
      t.run cfg acts = some v ∧ Chosen cfg s v M j T k ls := by
  have hne : M ≠ [] := List.length_pos_iff.mp (Nat.succ_pos _ |>.trans_le hmajority)
  obtain ⟨j, hj, hmax⟩ := exists_upToDate t.nodes hne
  obtain ⟨raise, u, hfree, hraise, huidle, hulog, huterm, huothers⟩ :=
    raise_run hsub hj htimeout (h.idle j hj)
  have hupto : ∀ d ∈ M, d ≠ j →
      (u.nodes d).persistent.currentTerm ≤ (u.nodes j).persistent.currentTerm ∧
      ((u.nodes j).getLastLogTerm > (u.nodes d).getLastLogTerm ∨
        (u.nodes j).getLastLogTerm = (u.nodes d).getLastLogTerm ∧
          (u.nodes j).getLastLogIndex ≥ (u.nodes d).getLastLogIndex) := by
    intro d hd hdj
    have hmax := hmax d hd
    rw [huothers d hdj]
    refine ⟨huterm d hd, ?_⟩
    unfold RaftNode.getLastLogTerm RaftNode.getLastLogIndex at hmax ⊢
    rwa [hulog]
  obtain ⟨elect, v, k, ls, hfree', helect, helected, hgranted, hvout⟩ :=
    election_run now huidle htimeout hM hsub hj hmajority hupto
  refine ⟨raise ++ elect, v, j, hj, _, k, ls, List.forall_mem_append.mpr ⟨hfree, hfree'⟩,
    (Transition.run_append_of_run hraise _).trans helect, ?_, fun d hd => ?_,
    fun d hd hdj => ?_, fun d hd hdj => (hgranted d hd hdj).2, fun i hi => ?_⟩
  · rwa [hulog, h.kept j hj] at helected
  · have hle := huterm d hd
    rw [h.kept d hd] at hle
    exact Nat.lt_succ_of_le hle
  · rw [(hgranted d hd hdj).1, huothers d hdj, h.kept d hd]
  · have hij : i ≠ j := (ne_of_mem_of_not_mem hj hi).symm
    rw [hvout i hi, huothers i hij, h.others i hi]

/-! ## From any state -/

omit [DecidableEq N] in
theorem Matching.concat {l l' : List (LogEntry C)} {e : LogEntry C} (h : Matching l l')
    (he : ∀ x ∈ l, x.term < e.term) : Matching l (l' ++ [e]) := by
  intro p x x' hx hx' hterm
  rcases lt_or_ge p l'.length with hp | hp
  · rw [List.getElem?_append_left hp] at hx'
    rw [List.take_append_of_le_length hp]
    exact h p x x' hx hx' hterm
  · have hmem : x' ∈ [e] := by
      rw [List.getElem?_append_right hp] at hx'
      exact List.mem_of_getElem? hx'
    rw [List.mem_singleton.mp hmem] at hterm
    exact absurd hterm (he x (List.mem_of_getElem? hx)).ne

/-- The logs that the chosen leader meets match its own, with the entry it is about to add. -/
theorem Chosen.matching {s v : Cluster N C} {M : List N} {j : N} {T k : ℕ} {ls : LeaderState N}
    (hc : Chosen cfg s v M j T k ls) {A : History N C} {clean : Prop}
    (hA : Replication.Consistent LogEntry.term cfg.quorums A) (h : Coupled cfg clean s A)
    (hsub : ∀ d ∈ M, d ∈ cfg.nodes) (hj : j ∈ M) {e : LogEntry C} (he : e.term = T) :
    ∀ d ∈ M, d ≠ j → (v.nodes d).persistent.currentTerm ≤ T ∧
      Matching (v.nodes d).persistent.log ((s.nodes j).persistent.log ++ [e]) := by
  intro d hd hdj
  have hnd := h.nodes d (hsub d hd)
  refine ⟨(hc.term d hd hdj).le, ?_⟩
  rw [hc.log d hd hdj]
  refine Matching.concat (fun p e e' he he' => ?_) fun x hx => ?_
  · rw [hnd.log_eq] at he ⊢
    rw [(h.nodes j (hsub j hj)).log_eq] at he' ⊢
    exact (hA.logs d).take_eq (hA.logs j) he he'
  · rw [hnd.log_eq] at hx
    rw [he]
    exact (hA.logs_le d x hx).trans_lt (hnd.term_eq ▸ hc.later d hd)

/-- Node `j` leads in a term after those of `M` at `s`; the log it had then and an entry for
    `command` are committed, applied and in the logs of all of `M`. -/
structure Recovered (s s' : Cluster N C) (M : List N) (j : N) (command : C) : Prop where
  leader : (s'.nodes j).state = .leader
  term : ∀ d ∈ M, (s.nodes d).persistent.currentTerm < (s'.nodes j).persistent.currentTerm
  log : (s'.nodes j).persistent.log = (s.nodes j).persistent.log ++
    [⟨(s'.nodes j).persistent.currentTerm, (s.nodes j).persistent.log.length + 1, command⟩]
  committed : (s'.nodes j).volatile.commitIndex = (s'.nodes j).persistent.log.length
  applied : ∀ e ∈ (s'.nodes j).persistent.log, (e.index, e.command) ∈ (s'.nodes j).applied
  spread : ∀ d ∈ M, (s'.nodes j).persistent.log <+: (s'.nodes d).persistent.log

/-- The command of a leader whose log has spread is committed and applied. -/
theorem recovered_of_spreading {s s' : Cluster N C} {M : List N} {hM : M.Nodup} {j : N} {T : ℕ}
    {command : C} {ls : LeaderState N} (hindexed : Indexed (s.nodes j).persistent.log)
    (hlater : ∀ d ∈ M, (s.nodes d).persistent.currentTerm < T)
    (h : Spreading cfg M hM j ((s.nodes j).persistent.log ++
      [⟨T, (s.nodes j).persistent.log.length + 1, command⟩]) T (fun _ => 0) s'.nodes ls)
    (hcommit : (s'.nodes j).volatile.commitIndex = (s.nodes j).persistent.log.length + 1)
    (happlied : (s'.nodes j).volatile.lastApplied = (s.nodes j).persistent.log.length + 1) :
    Recovered s s' M j command where
  leader := h.leading.state
  term d hd := by
    rw [h.leading.term]
    exact hlater d hd
  log := by rw [h.leading.log, h.leading.term]
  committed := by
    rw [hcommit, h.leading.log, List.length_append, List.length_singleton]
  applied e he := by
    have hlength := congrArg List.length h.leading.log
    rw [List.length_append, List.length_singleton] at hlength
    obtain ⟨p, hp⟩ := List.mem_iff_getElem?.mp he
    have hlt := (List.getElem?_eq_some_iff.mp hp).1
    have hindex : Indexed (s'.nodes j).persistent.log :=
      h.leading.log ▸ hindexed.append rfl
    rw [hindex p e hp]
    exact h.ok.calls p e (by omega) hp
  spread d hd := by
    rcases eq_or_ne d j with rfl | hdj
    · exact List.prefix_rfl
    · have hcaught := (h.within d hd hdj).caught.log
      rw [h.leading.log]
      rw [← hcaught]
      exact List.take_prefix _ _

/-- Whatever crashes and messages there have been, if the crashes spared `_save_state`: any
    majority can be restarted and can then, without the others and without a further crash, elect
    one of its nodes and commit the next command. -/
theorem recovers {start : N → ℚ} {acts : List (Action N C)} {s : Cluster N C}
    (htimeout : cfg.electionTimeoutMin ≤ cfg.electionTimeoutMax)
    (hsave : ∀ a ∈ acts, a.savesWhole = true) (hs : (boot start).run cfg acts = some s)
    {M : List N} (hM : M.Nodup) (hsub : ∀ d ∈ M, d ∈ cfg.nodes)
    (hmajority : cfg.getMajority ≤ M.length) (now : ℚ) (command : C) :
    ∃ more s', ∃ j ∈ M, (∀ a ∈ more, a.crashFree = true) ∧
      s.run cfg (M.map (fun d => .crash d now) ++ more) = some s' ∧
      Recovered s s' M j command ∧ ∀ i ∉ M, s'.nodes i = s.nodes i := by
  obtain ⟨A, hA, h⟩ := Simulated.boot (followed_of_savesWhole hsave) hs
  -- after the restarts every node of `M` is idle and has what it had saved
  obtain ⟨t, hcrash, hrestarted⟩ :=
    restarts_run now hM hsub fun d hd => (h.nodes d (hsub d hd)).file
  -- one of them is elected, and proposes
  obtain ⟨elect, v, j, hj, T, k, ls, hfree, helect, hchosen⟩ :=
    choice_run now hrestarted htimeout hM hsub hmajority
  have hindexed := (h.nodes j (hsub j hj)).indexed
  obtain ⟨last, s', ls', hfree', hlast, hspread, hsout, hcommit, happlied⟩ :=
    proposal_run now hchosen.elected hindexed command hM hsub hj hmajority
      (hchosen.matching hA h hsub hj (e := ⟨T, _, command⟩) rfl)
  refine ⟨elect ++ last, s', j, hj, List.forall_mem_append.mpr ⟨hfree, hfree'⟩, ?_,
    recovered_of_spreading hindexed hchosen.later hspread hcommit happlied, fun i hi => ?_⟩
  · refine (Transition.run_append_of_run hcrash _).trans ?_
    exact (Transition.run_append_of_run helect _).trans hlast
  · rw [hsout i hi, hchosen.others i hi]

/-- Node 0 has led term 1 with entry 7 on nodes 0 and 1; nodes 1 and 2 go on without it. -/
theorem recovers_withoutZero : ∃ s : Cluster (Fin 3) ℕ, (s.nodes 0).state = .leader ∧
    (s.nodes 1).persistent.log ≠ [] ∧
    ∃ more s', ∃ j ∈ [1, 2], (∀ a ∈ more, a.crashFree = true) ∧
      s.run threeNodes ([1, 2].map (fun d => .crash d 9) ++ more) = some s' ∧
      Recovered s s' [1, 2] j 8 ∧ ∀ i ∉ [1, 2], s'.nodes i = s.nodes i := by
  have hrun : ((boot fun _ => 0 : Cluster (Fin 3) ℕ).run threeNodes
      (electionOfZero ++ replication)).any (fun s => decide ((s.nodes 0).state = .leader) &&
        decide ((s.nodes 1).persistent.log ≠ [])) = true := by
    decide +kernel
  obtain ⟨s, hs, hp⟩ := (Option.any_eq_true _ _).mp hrun
  obtain ⟨hleads, hlog⟩ := Bool.and_eq_true_iff.mp hp
  exact ⟨s, of_decide_eq_true hleads, of_decide_eq_true hlog,
    recovers (by decide) (by decide) hs (by decide) (by decide) (by decide) 9 8⟩

end Cluster

end Pynchronize
