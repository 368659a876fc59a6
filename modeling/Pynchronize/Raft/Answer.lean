import Pynchronize.Raft.Terms

/-!
# Handlers that run to their end

A handler may suspend in `_step_down` and in `command_handler`. `answer` is the
whole handler when nothing else runs on the node meanwhile; `answer_run` finds
it in the runs of the cluster.
-/

namespace Pynchronize

open Lib

variable {N C : Type*}

namespace RaftNode

/-! ## Applying to the end -/

/-- `command_handler` returns `k` times, and `_apply_committed` goes on each time. -/
def applyRounds : ℕ → RaftNode N C → RaftNode N C
  | 0, n => n
  | k + 1, n => applyRounds k n.applyCommitted.1

/-- `_apply_committed` from its suspension in `command_handler` to its end. -/
def applyRest (n : RaftNode N C) : RaftNode N C :=
  applyRounds (n.volatile.commitIndex - n.volatile.lastApplied) n

theorem applyCommitted_of_le {n : RaftNode N C}
    (h : n.volatile.commitIndex ≤ n.volatile.lastApplied) : n.applyCommitted = (n, false) := by
  unfold applyCommitted
  rw [Nat.sub_eq_zero_of_le h]
  rfl

/-- `last_applied` counted up, with nothing applied. -/
def skip (n : RaftNode N C) : RaftNode N C :=
  n.withVolatile { n.volatile with lastApplied := n.volatile.lastApplied + 1 } n.applied

theorem applyLoop_succ_of_some {n : RaftNode N C} {e : LogEntry C} (k : ℕ)
    (he : n.persistent.log[n.volatile.lastApplied]? = some e) :
    applyLoop (k + 1) n = (n.withVolatile n.skip.volatile
      (n.applied ++ [(n.volatile.lastApplied + 1, e.command)]), true) := by
  have hentry : getLogEntry n.skip (n.volatile.lastApplied + 1) = some e := by
    rw [getLogEntry_succ]
    exact he
  unfold applyLoop
  dsimp only
  split
  · rename_i entry hfound
    obtain rfl := Option.some.inj (hentry.symm.trans hfound)
    rfl
  · rename_i hfound
    cases hentry.symm.trans hfound

theorem applyLoop_succ_of_none {n : RaftNode N C} (k : ℕ)
    (he : n.persistent.log[n.volatile.lastApplied]? = none) :
    applyLoop (k + 1) n = applyLoop k n.skip := by
  have hentry : getLogEntry n.skip (n.volatile.lastApplied + 1) = none := by
    rw [getLogEntry_succ]
    exact he
  rw [applyLoop]
  dsimp only
  split
  · rename_i entry hfound
    cases hentry.symm.trans hfound
  · rfl

/-- A suspended loop has applied something, a finished one everything. -/
theorem applyLoop_lastApplied (k : ℕ) (n : RaftNode N C) :
    if (applyLoop k n).2 then n.volatile.lastApplied < (applyLoop k n).1.volatile.lastApplied
    else (applyLoop k n).1.volatile.lastApplied = n.volatile.lastApplied + k := by
  induction k generalizing n with
  | zero => rfl
  | succ k ih =>
    cases he : n.persistent.log[n.volatile.lastApplied]? with
    | some e =>
      rw [applyLoop_succ_of_some k he]
      exact Nat.lt_succ_self _
    | none =>
      have h := ih n.skip
      rw [applyLoop_succ_of_none k he]
      split
      · rename_i hsuspended
        rw [if_pos hsuspended] at h
        exact Nat.lt_of_succ_lt h
      · rename_i hdone
        rw [if_neg hdone] at h
        rw [h]
        show n.volatile.lastApplied + 1 + k = _
        omega

/-- Only what `command_handler` and `last_applied` record changes. -/
theorem applyCommitted_volatile (n : RaftNode N C) :
    ∃ a calls, n.applyCommitted.1 =
      n.withVolatile { n.volatile with lastApplied := a } calls := by
  obtain ⟨a, calls, h, -⟩ := n.applyCommitted_eq
  exact ⟨a, calls, h⟩

/-- `_apply_committed` suspends after a call of `command_handler` or comes to its end. -/
theorem applyCommitted_advances (n : RaftNode N C) :
    n.applyCommitted.1.volatile.commitIndex = n.volatile.commitIndex ∧
    if n.applyCommitted.2 then
      n.volatile.lastApplied < n.applyCommitted.1.volatile.lastApplied
    else n.volatile.commitIndex ≤ n.applyCommitted.1.volatile.lastApplied := by
  obtain ⟨a, calls, heq⟩ := n.applyCommitted_volatile
  have hloop := applyLoop_lastApplied (n.volatile.commitIndex - n.volatile.lastApplied) n
  change if n.applyCommitted.2 then _ < n.applyCommitted.1.volatile.lastApplied
    else n.applyCommitted.1.volatile.lastApplied = _ at hloop
  refine ⟨by rw [heq]; rfl, ?_⟩
  split
  · rename_i hsuspended
    rwa [if_pos hsuspended] at hloop
  · rename_i hdone
    rw [if_neg hdone] at hloop
    omega

theorem applyRounds_eq (k : ℕ) (n : RaftNode N C) :
    ∃ a calls, applyRounds k n = n.withVolatile { n.volatile with lastApplied := a } calls := by
  induction k generalizing n with
  | zero => exact ⟨n.volatile.lastApplied, n.applied, rfl⟩
  | succ k ih =>
    obtain ⟨a, calls, h⟩ := n.applyCommitted_volatile
    obtain ⟨a', calls', h'⟩ := ih n.applyCommitted.1
    refine ⟨a', calls', ?_⟩
    rw [applyRounds, h', h]
    rfl

theorem applyRest_eq (n : RaftNode N C) :
    ∃ a calls, n.applyRest = n.withVolatile { n.volatile with lastApplied := a } calls :=
  applyRounds_eq _ n

theorem applyRounds_of_le {n : RaftNode N C}
    (h : n.volatile.commitIndex ≤ n.volatile.lastApplied) (k : ℕ) : applyRounds k n = n := by
  induction k with
  | zero => rfl
  | succ k ih => rw [applyRounds, applyCommitted_of_le h, ih]

/-! ## Whole handlers -/

/-- The node after the term check of a handler. -/
def afterTermCheck (n : RaftNode N C) (term : ℕ) : RaftNode N C :=
  if term > n.persistent.currentTerm then n.stepDown term else n

section Handlers

variable [DecidableEq N]

/-- The handler that `message` is for, up to its answer. -/
def answer (nodeId : N) (now : ℚ) (n : RaftNode N C) (message : Message N (Request N C)) :
    RaftNode N C × Message N Response :=
  let n := n.afterTermCheck message.term
  match message.payload with
  | .requestVote candidateId lastLogIndex lastLogTerm =>
    n.handleRequestVote nodeId now message.term candidateId lastLogIndex lastLogTerm
  | .appendEntries leaderId prevLogIndex prevLogTerm entries leaderCommit =>
    match n.handleAppendEntries nodeId now message.term leaderId prevLogIndex prevLogTerm entries
        leaderCommit with
    | (n, some response) => (n, response)
    | (n, none) => (n.applyRest, n.applyRest.appendEntriesResponse nodeId true)

/-- A message of a later term is handled as one of the own term after `_step_down`. -/
theorem answer_of_gt (nodeId : N) (now : ℚ) {n : RaftNode N C}
    {message : Message N (Request N C)} (h : message.term > n.persistent.currentTerm) :
    n.answer nodeId now message = (n.stepDown message.term).answer nodeId now message := by
  have hterm : ¬ message.term > (n.stepDown message.term).persistent.currentTerm := lt_irrefl _
  unfold answer afterTermCheck
  rw [if_pos h, if_neg hterm]

end Handlers

end RaftNode

/-! ## In the cluster -/

namespace Cluster

variable [DecidableEq N] (cfg : Config N)

theorem step_deliver {s : Cluster N C} {j : ℕ} {r : Rpc N C} (hr : s.rpcs[j]? = some r)
    (hst : r.stage = .inFlight) (now : ℚ) :
    s.step cfg (.deliver j now) = some (s.deliver j r now) := by
  simp [step, hr, hst]

theorem step_resumeHandler {s : Cluster N C} {j : ℕ} {r : Rpc N C} (hr : s.rpcs[j]? = some r)
    (hst : r.stage = .steppingDown) (now : ℚ) :
    s.step cfg (.resumeHandler j now) = some (s.handle j r now) := by
  simp [step, hr, hst]

theorem step_resumeHandler_applying {s : Cluster N C} {j : ℕ} {r : Rpc N C}
    (hr : s.rpcs[j]? = some r) (hst : r.stage = .applying) (now : ℚ) :
    s.step cfg (.resumeHandler j now) = some (s.handlerApplied j r) := by
  simp [step, hr, hst]

/-- The receiver of RPC `j` and the stage of its handler, the rest of the cluster as in `s`. -/
def withHandler (s : Cluster N C) (j : ℕ) (r : Rpc N C) (n : RaftNode N C) (stage : Stage N) :
    Cluster N C :=
  (s.setNode r.dst n).setStage j r stage

theorem withHandler_withHandler (s : Cluster N C) (j : ℕ) (r : Rpc N C) (n n' : RaftNode N C)
    (stage stage' : Stage N) :
    (s.withHandler j r n stage).withHandler j { r with stage := stage } n' stage' =
      s.withHandler j r n' stage' := by
  simp [withHandler, setNode, setStage]

theorem nodes_withHandler (s : Cluster N C) (j : ℕ) (r : Rpc N C) (n : RaftNode N C)
    (stage : Stage N) : (s.withHandler j r n stage).nodes r.dst = n :=
  nodes_setNode_self s r.dst n

theorem getElem?_withHandler {s : Cluster N C} {j : ℕ} {r : Rpc N C} (hr : s.rpcs[j]? = some r)
    (n : RaftNode N C) (stage : Stage N) :
    (s.withHandler j r n stage).rpcs[j]? = some { r with stage := stage } :=
  getElem?_set_of_some hr _

/-- `command_handler` returns until the handler has answered. -/
theorem applyRounds_run {s : Cluster N C} {j : ℕ} {r : Rpc N C} (hr : s.rpcs[j]? = some r)
    (now : ℚ) (k : ℕ) {n : RaftNode N C}
    (hk : n.volatile.commitIndex - n.volatile.lastApplied ≤ k) :
    ∃ acts, (∀ a ∈ acts, a.crashFree = true) ∧ (s.withHandler j r n .applying).run cfg acts =
      some (s.withHandler j r (RaftNode.applyRounds k n)
        (.answered ((RaftNode.applyRounds k n).appendEntriesResponse r.dst true))) := by
  -- one more call returns
  have next : ∀ n : RaftNode N C, (s.withHandler j r n .applying).step cfg
      (.resumeHandler j now) = some (s.withHandler j r n.applyCommitted.1
        (if n.applyCommitted.2 then .applying
        else .answered (n.applyCommitted.1.appendEntriesResponse r.dst true))) := by
    intro n
    rw [step_resumeHandler_applying cfg (getElem?_withHandler hr n .applying) rfl]
    unfold handlerApplied
    rw [nodes_withHandler]
    exact congrArg some (withHandler_withHandler s j r n _ _ _)
  have done : ∀ n : RaftNode N C, n.volatile.commitIndex ≤ n.volatile.lastApplied →
      (s.withHandler j r n .applying).step cfg (.resumeHandler j now) =
        some (s.withHandler j r n (.answered (n.appendEntriesResponse r.dst true))) := by
    intro n hle
    rw [next, RaftNode.applyCommitted_of_le hle]
    rfl
  induction k generalizing n with
  | zero =>
    exact ⟨[.resumeHandler j now], List.forall_mem_singleton.mpr rfl,
      Transition.run_single (done n (by omega))⟩
  | succ k ih =>
    obtain ⟨hcommit, hadvances⟩ := n.applyCommitted_advances
    have hnext := next n
    cases hsuspended : n.applyCommitted.2 with
    | true =>
      rw [hsuspended, if_pos rfl] at hadvances hnext
      obtain ⟨acts, hfree, hacts⟩ := ih (n := n.applyCommitted.1) (by omega)
      exact ⟨_ :: acts, List.forall_mem_cons.mpr ⟨rfl, hfree⟩,
        (Transition.run_of_step hnext acts).trans hacts⟩
    | false =>
      rw [hsuspended, if_neg Bool.false_ne_true] at hadvances hnext
      refine ⟨[.resumeHandler j now], List.forall_mem_singleton.mpr rfl, ?_⟩
      rw [RaftNode.applyRounds, RaftNode.applyRounds_of_le (by omega)]
      exact Transition.run_single hnext

/-- Once the term check is over, the handler of RPC `j` can run to its end. -/
theorem handle_run {s : Cluster N C} {j : ℕ} {r : Rpc N C} (hr : s.rpcs[j]? = some r)
    (now : ℚ) (hterm : r.message.term ≤ (s.nodes r.dst).persistent.currentTerm) :
    ∃ acts, (∀ a ∈ acts, a.crashFree = true) ∧ (s.handle j r now).run cfg acts =
      some (s.withHandler j r ((s.nodes r.dst).answer r.dst now r.message).1
        (.answered ((s.nodes r.dst).answer r.dst now r.message).2)) := by
  unfold handle RaftNode.answer RaftNode.afterTermCheck
  rw [if_neg (Nat.not_lt.mpr hterm)]
  cases r.message.payload with
  | requestVote candidateId lastLogIndex lastLogTerm => exact ⟨[], List.forall_mem_nil _, rfl⟩
  | appendEntries leaderId prev prevTerm entries leaderCommit =>
    dsimp only
    generalize (s.nodes r.dst).handleAppendEntries r.dst now r.message.term leaderId prev prevTerm
      entries leaderCommit = result
    obtain ⟨n, response⟩ := result
    cases response with
    | some response => exact ⟨[], List.forall_mem_nil _, rfl⟩
    | none => exact applyRounds_run cfg hr now _ le_rfl

/-- Some run delivers RPC `j` and does nothing but call its handler, up to the answer. -/
theorem answer_run {s : Cluster N C} {j : ℕ} {r : Rpc N C} (hr : s.rpcs[j]? = some r)
    (hst : r.stage = .inFlight) (now : ℚ) :
    ∃ acts, (∀ a ∈ acts, a.crashFree = true) ∧ s.run cfg acts =
      some (s.withHandler j r ((s.nodes r.dst).answer r.dst now r.message).1
        (.answered ((s.nodes r.dst).answer r.dst now r.message).2)) := by
  have hdeliver := step_deliver cfg hr hst now
  unfold deliver at hdeliver
  by_cases hterm : r.message.term > (s.nodes r.dst).persistent.currentTerm
  · rw [if_pos hterm] at hdeliver
    -- the handler waits in `_step_down`, then goes on in the term of the message
    have hr' := getElem?_withHandler hr ((s.nodes r.dst).stepDown r.message.term) .steppingDown
    have hresume := step_resumeHandler cfg hr' rfl now
    obtain ⟨acts, hfree, hacts⟩ :=
      handle_run cfg hr' now (by rw [nodes_withHandler]; exact le_rfl)
    rw [nodes_withHandler, withHandler_withHandler] at hacts
    refine ⟨.deliver j now :: .resumeHandler j now :: acts,
      List.forall_mem_cons.mpr ⟨rfl, List.forall_mem_cons.mpr ⟨rfl, hfree⟩⟩, ?_⟩
    refine (Transition.run_of_step hdeliver _).trans ?_
    refine (Transition.run_of_step hresume acts).trans (hacts.trans ?_)
    rw [RaftNode.answer_of_gt r.dst now hterm]
  · rw [if_neg hterm] at hdeliver
    obtain ⟨acts, hfree, hacts⟩ := handle_run cfg hr now (Nat.le_of_not_lt hterm)
    exact ⟨.deliver j now :: acts, List.forall_mem_cons.mpr ⟨rfl, hfree⟩,
      (Transition.run_of_step hdeliver acts).trans hacts⟩

end Cluster

end Pynchronize
