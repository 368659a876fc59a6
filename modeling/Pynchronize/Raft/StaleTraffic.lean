import Pynchronize.Raft.Answer
import Pynchronize.Raft.Safety

/-!
# Messages of earlier terms

Both handlers refuse a message of an earlier term. `_handle_request_vote` then
leaves the node as it was, but `_handle_append_entries` resets
`_last_heartbeat` before it compares the terms, and so puts off the next
election (`stale_ignored_iff`).
-/

namespace Pynchronize

open Lib

variable {N C : Type*}

/-! ## Refusals -/

def Request.isAppendEntries : Request N C → Bool
  | .requestVote .. => false
  | .appendEntries .. => true

/-- The negative answer to a request. -/
def Request.refusal : Request N C → Response
  | .requestVote .. => .requestVoteResponse false
  | .appendEntries .. => .appendEntriesResponse false

def Response.Negative (r : Response) : Prop := r.voteGranted = false ∧ r.success = false

theorem Request.negative_refusal (r : Request N C) : r.refusal.Negative := by
  cases r with
  | requestVote => exact ⟨rfl, rfl⟩
  | appendEntries => exact ⟨rfl, rfl⟩

/-- A message, and what the clock shows when its handler asks. -/
structure Arrival (N C : Type*) where
  message : Message N (Request N C)
  now : ℚ

namespace RaftNode

/-! ## One message -/

/-- `_last_heartbeat` after a message of an earlier term. -/
def heartbeatAfter (lastHeartbeat : ℚ) (m : Arrival N C) : ℚ :=
  if m.message.payload.isAppendEntries then m.now else lastHeartbeat

variable [DecidableEq N] {n : RaftNode N C}

theorem handleRequestVote_of_lt (nodeId : N) (now : ℚ) {term : ℕ} (candidateId : N)
    (lastLogIndex lastLogTerm : ℕ) (h : term < n.persistent.currentTerm) :
    n.handleRequestVote nodeId now term candidateId lastLogIndex lastLogTerm =
      (n, ⟨nodeId, n.persistent.currentTerm, .requestVoteResponse false⟩) := by
  unfold handleRequestVote
  dsimp only
  rw [if_neg fun hvote => absurd hvote.1 (Nat.not_le.mpr h)]

theorem answer_stale (nodeId : N) {m : Arrival N C}
    (h : m.message.term < n.persistent.currentTerm) :
    n.answer nodeId m.now m.message =
      ({ n with lastHeartbeat := heartbeatAfter n.lastHeartbeat m },
        ⟨nodeId, n.persistent.currentTerm, m.message.payload.refusal⟩) := by
  obtain ⟨⟨senderId, term, payload⟩, now⟩ := m
  have hcheck : n.afterTermCheck term = n := if_neg (Nat.lt_asymm h)
  unfold answer
  rw [hcheck]
  cases payload with
  | requestVote candidateId lastLogIndex lastLogTerm =>
    exact handleRequestVote_of_lt nodeId now candidateId lastLogIndex lastLogTerm h
  | appendEntries leaderId prev prevTerm entries leaderCommit =>
    dsimp only
    rw [handleAppendEntries_of_lt nodeId now n leaderId entries leaderCommit h]
    rfl

/-! ## Many messages -/

/-- The node after it has handled the messages one by one, with its answers. -/
def answerAll (nodeId : N) (n : RaftNode N C) :
    List (Arrival N C) → RaftNode N C × List (Message N Response)
  | [] => (n, [])
  | m :: rest =>
    let (n, response) := n.answer nodeId m.now m.message
    let (n, responses) := answerAll nodeId n rest
    (n, response :: responses)

/-- Nothing but the timer changes, and every answer is a refusal. -/
theorem answerAll_stale (nodeId : N) {msgs : List (Arrival N C)}
    (h : ∀ m ∈ msgs, m.message.term < n.persistent.currentTerm) :
    n.answerAll nodeId msgs =
      ({ n with lastHeartbeat := msgs.foldl heartbeatAfter n.lastHeartbeat },
        msgs.map fun m => ⟨nodeId, n.persistent.currentTerm, m.message.payload.refusal⟩) := by
  induction msgs generalizing n with
  | nil => rfl
  | cons m rest ih =>
    have hrest := ih (n := { n with lastHeartbeat := heartbeatAfter n.lastHeartbeat m })
      fun m' hm' => h m' (List.mem_cons_of_mem _ hm')
    unfold answerAll
    rw [answer_stale nodeId (h m (List.mem_cons_self ..))]
    dsimp only
    rw [hrest]
    rfl

/-- Every answer is negative, and after every message the node is as it was. -/
structure Ignores (nodeId : N) (n : RaftNode N C) (msgs : List (Arrival N C)) : Prop where
  negative : ∀ response ∈ (n.answerAll nodeId msgs).2, response.payload.Negative
  unchanged : ∀ before after, msgs = before ++ after → (n.answerAll nodeId before).1 = n

omit [DecidableEq N] in
theorem foldl_heartbeatAfter {lastHeartbeat : ℚ} {msgs : List (Arrival N C)}
    (h : ∀ m ∈ msgs, m.message.payload.isAppendEntries = true → m.now = lastHeartbeat) :
    msgs.foldl heartbeatAfter lastHeartbeat = lastHeartbeat := by
  induction msgs with
  | nil => rfl
  | cons m rest ih =>
    have hm : heartbeatAfter lastHeartbeat m = lastHeartbeat := by
      unfold heartbeatAfter
      split
      · rename_i happend
        exact h m (List.mem_cons_self ..) happend
      · rfl
    rw [List.foldl_cons, hm]
    exact ih fun m' hm' => h m' (List.mem_cons_of_mem _ hm')

/-- Messages of earlier terms are ignored if and only if no AppendEntries among them finds the
    clock elsewhere than at `_last_heartbeat`. -/
theorem stale_ignored_iff (nodeId : N) {msgs : List (Arrival N C)}
    (h : ∀ m ∈ msgs, m.message.term < n.persistent.currentTerm) :
    n.Ignores nodeId msgs ↔
      ∀ m ∈ msgs, m.message.payload.isAppendEntries = true → m.now = n.lastHeartbeat := by
  constructor
  · intro hignores m hm happend
    obtain ⟨before, after, rfl⟩ := List.append_of_mem hm
    have hsame := hignores.unchanged (before ++ [m]) after (by simp)
    rw [answerAll_stale nodeId fun m' hm' => h m' (by simp at hm' ⊢; tauto)] at hsame
    have htimer : (before ++ [m]).foldl heartbeatAfter n.lastHeartbeat = n.lastHeartbeat :=
      congrArg RaftNode.lastHeartbeat hsame
    rwa [List.foldl_append, List.foldl_cons, List.foldl_nil, heartbeatAfter, if_pos happend]
      at htimer
  · intro hclock
    refine ⟨fun response hresponse => ?_, ?_⟩
    · rw [answerAll_stale nodeId h] at hresponse
      obtain ⟨m, -, rfl⟩ := List.mem_map.mp hresponse
      exact m.message.payload.negative_refusal
    · rintro before after rfl
      have hbefore : ∀ m ∈ before, m ∈ before ++ after := fun m => List.mem_append_left after
      rw [answerAll_stale nodeId fun m hm => h m (hbefore m hm),
        foldl_heartbeatAfter fun m hm => hclock m (hbefore m hm)]

/-- Node 1 has started at time 4, in term 3, with two entries and a vote for 2. The leader of term
    1 reaches it with another second entry and a heartbeat, all at time 4, and the candidates of
    earlier terms reach it then and later. -/
theorem stale_ignored_at_heartbeat :
    (boot (some ⟨3, some 2, [⟨1, 1, 7⟩, ⟨2, 2, 8⟩]⟩) 4 : RaftNode (Fin 3) ℕ).Ignores 1
      [⟨⟨0, 2, .requestVote 0 2 2⟩, 4⟩, ⟨⟨0, 1, .appendEntries 0 1 1 [⟨1, 2, 9⟩] 2⟩, 4⟩,
        ⟨⟨2, 1, .requestVote 2 4 1⟩, 4⟩, ⟨⟨0, 1, .appendEntries 0 2 1 [] 2⟩, 4⟩,
        ⟨⟨0, 2, .requestVote 0 3 2⟩, 6⟩] :=
  (stale_ignored_iff 1 (by decide)).mpr (by decide)

end RaftNode

/-! ## In the cluster -/

namespace Cluster

/-- Node 0 leads term 1, node 1 has stood for term 2 in vain, and a heartbeat of node 0 is under
    way to it. -/
def heartbeatUnderWay : List (Action (Fin 3) ℕ) :=
  electionOfZero ++ [.becameLeader 0, .electionTimeout 1 (1 / 5) 3, .electionEnds 1 [],
    .heartbeat 0]

/-- The heartbeat reaches node 1 at time 4. Without it the node could stand again at 41/10, with
    it no more. -/
theorem stale_heartbeat_postpones :
    ∃ (s s' : Cluster (Fin 3) ℕ) (r : Rpc (Fin 3) ℕ),
      (boot fun _ => 0).run threeNodes heartbeatUnderWay = some s ∧ s.rpcs[4]? = some r ∧
      r.dst = 1 ∧ r.message.term < (s.nodes 1).persistent.currentTerm ∧
      ¬ (s.nodes 1).Ignores 1 [⟨r.message, 4⟩] ∧
      s.step threeNodes (.deliver 4 4) = some s' ∧
      (s.step threeNodes (.electionTimeout 1 (1 / 5) (41 / 10))).isSome ∧
      (s'.step threeNodes (.electionTimeout 1 (1 / 5) (41 / 10))).isNone := by
  have hrun : ((boot fun _ => 0 : Cluster (Fin 3) ℕ).run threeNodes heartbeatUnderWay).any
      (fun s => (s.rpcs[4]?).any (fun r => decide (r.dst = 1) &&
          decide (r.message.term < (s.nodes 1).persistent.currentTerm) &&
          decide (((s.nodes 1).answerAll 1 [⟨r.message, 4⟩]).1.lastHeartbeat ≠
            (s.nodes 1).lastHeartbeat)) &&
        (s.step threeNodes (.deliver 4 4)).any fun s' =>
          (s.step threeNodes (.electionTimeout 1 (1 / 5) (41 / 10))).isSome &&
          (s'.step threeNodes (.electionTimeout 1 (1 / 5) (41 / 10))).isNone) = true := by
    decide +kernel
  obtain ⟨s, hs, hp⟩ := (Option.any_eq_true _ _).mp hrun
  obtain ⟨hrpc, hstep⟩ := Bool.and_eq_true_iff.mp hp
  obtain ⟨r, hr, hp⟩ := (Option.any_eq_true _ _).mp hrpc
  obtain ⟨hp, htimer⟩ := Bool.and_eq_true_iff.mp hp
  obtain ⟨hdst, hterm⟩ := Bool.and_eq_true_iff.mp hp
  obtain ⟨s', hs', hp⟩ := (Option.any_eq_true _ _).mp hstep
  obtain ⟨hbefore, hafter⟩ := Bool.and_eq_true_iff.mp hp
  refine ⟨s, s', r, hs, hr, of_decide_eq_true hdst, of_decide_eq_true hterm, fun hignores => ?_,
    hs', hbefore, hafter⟩
  have hsame := hignores.unchanged [⟨r.message, 4⟩] [] rfl
  exact of_decide_eq_true htimer (congrArg RaftNode.lastHeartbeat hsame)

end Cluster

end Pynchronize
