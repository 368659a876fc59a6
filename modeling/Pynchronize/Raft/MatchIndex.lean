import Pynchronize.Raft.Safety
import Pynchronize.Raft.Terms

/-!
# What `match_index` says

An accepted AppendEntries is kept with the log its receiver had at that moment.
As long as no stale success is booked, every `match_index` of a leader counts
entries that such a log shares with the log of the leader.
-/

namespace Pynchronize

open Lib Lib.Replication

variable {N C : Type*}

/-! ## One node -/

namespace RaftNode

@[simp] theorem leaderState_withVolatile (n : RaftNode N C) (v : VolatileState)
    (calls : List (ℕ × C)) : (n.withVolatile v calls).leaderState = n.leaderState := rfl

@[simp] theorem leaderState_applyCommitted (n : RaftNode N C) :
    n.applyCommitted.1.leaderState = n.leaderState := by
  obtain ⟨a, calls, heq, -⟩ := n.applyCommitted_eq
  simp [heq]

@[simp] theorem leaderState_tryCommit (cfg : Config N) (n : RaftNode N C) :
    (n.tryCommit cfg).1.leaderState = n.leaderState := by
  rcases n.tryCommit_eq cfg with heq | ⟨ls, c, -, -, heq⟩
  · simp [heq]
  · simp [heq]

@[simp] theorem leaderState_followCommit (n : RaftNode N C) (leaderCommit : ℕ) :
    (n.followCommit leaderCommit).1.leaderState = n.leaderState := by
  rcases n.followCommit_eq leaderCommit with heq | ⟨-, heq⟩
  · simp [heq]
  · simp [heq]

@[simp] theorem leaderState_mergeEntries (n : RaftNode N C) (entries : List (LogEntry C)) :
    (n.mergeEntries entries).leaderState = n.leaderState := by
  obtain ⟨file, heq⟩ := n.mergeEntries_eq entries
  rw [heq]

theorem leaderState_handleAppendEntries (nodeId : N) (now : ℚ) (n : RaftNode N C) (term : ℕ)
    (leaderId : N) (prevLogIndex prevLogTerm : ℕ) (entries : List (LogEntry C))
    (leaderCommit : ℕ) :
    (n.handleAppendEntries nodeId now term leaderId prevLogIndex prevLogTerm entries
      leaderCommit).1.leaderState = n.leaderState := by
  rcases Nat.lt_or_ge term n.persistent.currentTerm with hlt | hge
  · rw [handleAppendEntries_of_lt nodeId now n leaderId entries leaderCommit hlt]
  · rw [handleAppendEntries_of_le nodeId now n leaderId entries leaderCommit hge]
    split
    · simp [heard]
    · rfl

variable [DecidableEq N]

theorem leaderState_foldl_collectVote (n : RaftNode N C)
    (responses : List (N × Option (Message N Response))) :
    (responses.foldl collectVote n).leaderState = n.leaderState := by
  obtain ⟨votes, heq, -⟩ := n.foldl_collectVote_eq responses
  rw [heq]

theorem leaderState_handleRequestVote (nodeId : N) (now : ℚ) (n : RaftNode N C) (term : ℕ)
    (candidateId : N) (lastLogIndex lastLogTerm : ℕ) :
    (n.handleRequestVote nodeId now term candidateId lastLogIndex lastLogTerm).1.leaderState =
      n.leaderState := by
  rcases handleRequestVote_cases nodeId now n term candidateId lastLogIndex lastLogTerm with
    heq | ⟨-, -, heq⟩
  · rw [heq]
  · rw [heq]

/-- Where an entry of `match_index` comes from: it was there, the node has just become leader, or a
    success to `o` is booked. -/
inductive Matched (booked : Outgoing N C → Prop) (n : RaftNode N C) (f : N) (m : ℕ) : Prop
  | old {ls : LeaderState N} (hls : n.leaderState = some ls) (hm : ls.matchIndex.get? f = some m)
  | zero (hm : m = 0)
  | booked {o : Outgoing N C} (ho : booked o) (hls : n.leaderState.isSome = true)
      (hf : f = o.nodeId) (hm : m = o.prevLogIndex + o.entries.length)

/-- What `n'` says of `f` comes from `n`. -/
def MatchesFrom (booked : Outgoing N C → Prop) (n n' : RaftNode N C) : Prop :=
  ∀ ls', n'.leaderState = some ls' → ∀ f m, ls'.matchIndex.get? f = some m →
    Matched booked n f m

theorem matchesFrom_of_eq (booked : Outgoing N C → Prop) {n n' : RaftNode N C}
    (h : n'.leaderState = n.leaderState) : MatchesFrom booked n n' :=
  fun _ hls' _ _ hm => .old (h ▸ hls') hm

theorem matchesFrom_of_none (booked : Outgoing N C → Prop) {n n' : RaftNode N C}
    (h : n'.leaderState = none) : MatchesFrom booked n n' := by
  intro ls' hls'
  rw [h] at hls'
  cases hls'

theorem MatchesFrom.of_eq {booked : Outgoing N C → Prop} {n n' n'' : RaftNode N C}
    (h : MatchesFrom booked n n') (heq : n''.leaderState = n'.leaderState) :
    MatchesFrom booked n n'' :=
  fun ls' hls' => h ls' (heq ▸ hls')

theorem MatchesFrom.mono {booked booked' : Outgoing N C → Prop} {n n' : RaftNode N C}
    (h : MatchesFrom booked n n') (hbooked : ∀ o, booked o → booked' o) :
    MatchesFrom booked' n n' := by
  intro ls' hls' f m hm
  cases h ls' hls' f m hm with
  | old hls hold => exact .old hls hold
  | zero hz => exact .zero hz
  | booked ho hls hf hm => exact .booked (hbooked _ ho) hls hf hm

theorem matchesFrom_becomeLeader (booked : Outgoing N C → Prop) (cfg : Config N) (nodeId : N)
    (n n' : RaftNode N C) : MatchesFrom booked n (n'.becomeLeader cfg nodeId) := by
  intro ls' hls' f m hm
  obtain rfl := Option.some.inj hls'
  rcases get?_foldl_set _ _ _ f m hm with ⟨-, rfl⟩ | hold
  · exact .zero rfl
  · cases hold

theorem matchesFrom_handleResponse {n n' : RaftNode N C} {o : Outgoing N C}
    {response : Option (Message N Response)} {suspended : Bool}
    (h : n.handleResponse o response = some (n', suspended)) :
    MatchesFrom (fun o' => o' = o ∧ o.entries.isEmpty = false ∧
      ∃ message, response = some message ∧ message.payload.success = true) n n' := by
  cases responds h with
  | passes => exact matchesFrom_of_eq _ rfl
  | @books message ls hsuccess hentries hls =>
    intro ls' hls' f m hm
    obtain rfl := Option.some.inj hls'
    rw [Dict.get?_set] at hm
    split at hm
    · rename_i hf
      exact .booked ⟨rfl, hentries, message, rfl, hsuccess⟩ (by rw [hls]; rfl) hf.symm
        (Option.some.inj hm).symm
    · exact .old hls hm
  | backsOff hls =>
    -- only `next_index` moves
    intro ls' hls' f m hm
    obtain rfl := Option.some.inj hls'
    exact .old hls hm
  | stepsDown => exact matchesFrom_of_none _ rfl

end RaftNode

/-! ## The nodes of the cluster -/

namespace Cluster

open RaftNode (Outgoing MatchesFrom matchesFrom_of_eq matchesFrom_of_none)

variable [DecidableEq N] {cfg : Config N} {s s' : Cluster N C}

/-- `_send_append_entries` on node `i` is about to book a success to `o`. -/
def Books (s : Cluster N C) (a : Action N C) (i : N) (o : Outgoing N C) : Prop :=
  ∃ k kind j rest response, a = .reply k ∧ s.tasks[k]? = some ⟨i, kind, .sending o j rest⟩ ∧
    s.answerOf j = some response ∧ response.payload.success = true ∧ o.entries.isEmpty = false

theorem SendsAs.matchesFrom {a : Action N C} {i : N} {m : RaftNode N C} (h : s.SendsAs a i m) :
    MatchesFrom (s.Books a i) (s.nodes i) m := by
  cases h with
  | unchanged => exact matchesFrom_of_eq _ rfl
  | proposed => exact matchesFrom_of_eq _ rfl
  | @answered k j kind o rest response m ha ht hans heq =>
    refine (RaftNode.matchesFrom_handleResponse heq).mono ?_
    rintro _ ⟨rfl, hentries, message, hm, hsuccess⟩
    obtain rfl := Option.some.inj hm
    exact ⟨k, kind, j, rest, response, ha, ht, hans, hsuccess, hentries⟩

theorem matchesFrom_step {a : Action N C} (h : s.step cfg a = some s') (i : N) :
    MatchesFrom (s.Books a i) (s.nodes i) (s'.nodes i) := by
  have hstep := nodeStep h i
  generalize s'.nodes i = n at hstep ⊢
  cases hstep with
  | idle => exact matchesFrom_of_eq _ rfl
  | stands => exact matchesFrom_of_eq _ rfl
  | loses responses =>
    exact matchesFrom_of_eq _ (RaftNode.leaderState_foldl_collectVote (s.nodes i) responses)
  | wins => exact (RaftNode.matchesFrom_becomeLeader _ cfg i _ _).of_eq rfl
  | startsHeartbeat => exact matchesFrom_of_eq _ rfl
  | sends hm => exact hm.matchesFrom
  | commits hm => exact hm.matchesFrom.of_eq (RaftNode.leaderState_tryCommit cfg _)
  | applies => exact matchesFrom_of_eq _ (RaftNode.leaderState_applyCommitted _)
  | stepsDownOnResponse _ _ _ heq =>
    cases RaftNode.responds heq with
    | stepsDown => exact matchesFrom_of_none _ rfl
  | stepsDownOnRequest => exact matchesFrom_of_none _ rfl
  | handlesRequestVote =>
    exact matchesFrom_of_eq _ (RaftNode.leaderState_handleRequestVote _ _ _ _ _ _ _)
  | handlesAppendEntries =>
    exact matchesFrom_of_eq _ (RaftNode.leaderState_handleAppendEntries _ _ _ _ _ _ _ _ _)
  | restarts => exact matchesFrom_of_none _ rfl

/-! ## Accepted AppendEntries -/

/-- In the step an AppendEntries is accepted: by its receiver, in its term, and with the log that
    its receiver has then. -/
inductive AcceptsLog (s s' : Cluster N C) : N → ℕ → List (LogEntry C) → Prop
  | intro {j : ℕ} {r r' : Rpc N C} {leaderId : N} {prev prevTerm : ℕ}
      {entries : List (LogEntry C)} {leaderCommit : ℕ} (hr : s.rpcs[j]? = some r)
      (hr' : s'.rpcs[j]? = some r') (hbefore : r.stage.accepted = false)
      (hafter : r'.stage.accepted = true)
      (hpay : r.message.payload = .appendEntries leaderId prev prevTerm entries leaderCommit) :
      AcceptsLog s s' r.dst r.message.term (s'.nodes r.dst).persistent.log

/-- Somewhere in the run `f` accepted an AppendEntries of term `T` and then had the log `l`. -/
def Accepted (cfg : Config N) (s : Cluster N C) (acts : List (Action N C)) (f : N) (T : ℕ)
    (l : List (LogEntry C)) : Prop :=
  ∃ before a after t t', acts = before ++ a :: after ∧ s.run cfg before = some t ∧
    t.step cfg a = some t' ∧ AcceptsLog t t' f T l

theorem Accepted.snoc {acts : List (Action N C)} {f : N} {T : ℕ} {l : List (LogEntry C)}
    (h : Accepted cfg s acts f T l) (a : Action N C) : Accepted cfg s (acts ++ [a]) f T l := by
  obtain ⟨before, b, after, t, t', rfl, hrest⟩ := h
  exact ⟨before, b, after ++ [a], t, t', by simp, hrest⟩

theorem AcceptsLog.accepted {acts : List (Action N C)} {a : Action N C} {t t' : Cluster N C} {f : N}
    {T : ℕ} {l : List (LogEntry C)} (h : AcceptsLog t t' f T l) (ht : s.run cfg acts = some t)
    (hstep : t.step cfg a = some t') : Accepted cfg s (acts ++ [a]) f T l :=
  ⟨acts, a, [], t, t', rfl, ht, hstep, h⟩

/-- An accepted AppendEntries was accepted before, or its receiver accepts it now, in the term of
    the request. -/
def AcceptedFrom (s s' : Cluster N C) (j : ℕ) (r' : Rpc N C) : Prop :=
  ∃ r, s.rpcs[j]? = some r ∧ r.request = r'.request ∧ (r.stage.accepted = true ∨
    (s'.nodes r.dst).persistent.currentTerm = r.message.term ∧ r.stage.accepted = false)

omit [DecidableEq N] in
theorem acceptedFrom_append {more : List (Rpc N C)} (hrpcs : s'.rpcs = s.rpcs ++ more)
    (hmore : ∀ r ∈ more, r.stage = .inFlight) {j : ℕ} {r' : Rpc N C} (hr' : s'.rpcs[j]? = some r')
    (hacc : r'.stage.accepted = true) : AcceptedFrom s s' j r' := by
  rw [hrpcs] at hr'
  rcases Nat.lt_or_ge j s.rpcs.length with hlt | hge
  · rw [List.getElem?_append_left hlt] at hr'
    exact ⟨r', hr', rfl, Or.inl hacc⟩
  · rw [List.getElem?_append_right hge] at hr'
    rw [hmore r' (List.mem_of_getElem? hr')] at hacc
    cases hacc

omit [DecidableEq N] in
theorem acceptedFrom_of_eq (hrpcs : s'.rpcs = s.rpcs) {j : ℕ} {r' : Rpc N C}
    (hr' : s'.rpcs[j]? = some r') (hacc : r'.stage.accepted = true) : AcceptedFrom s s' j r' :=
  ⟨r', hrpcs ▸ hr', rfl, Or.inl hacc⟩

omit [DecidableEq N] in
/-- Only the RPC at `j` changes. -/
theorem acceptedFrom_set {j : ℕ} {r : Rpc N C} {stage : Stage N} (hr : s.rpcs[j]? = some r)
    (hrpcs : s'.rpcs = s.rpcs.set j { r with stage := stage })
    (hstage : stage.accepted = true → r.stage.accepted = true ∨
      (s'.nodes r.dst).persistent.currentTerm = r.message.term ∧ r.stage.accepted = false)
    {k : ℕ} {r' : Rpc N C} (hr' : s'.rpcs[k]? = some r') (hacc : r'.stage.accepted = true) :
    AcceptedFrom s s' k r' := by
  rw [hrpcs] at hr'
  rcases eq_or_ne j k with rfl | hne
  · rw [getElem?_set_of_some hr] at hr'
    obtain rfl := Option.some.inj hr'
    exact ⟨r, hr, rfl, hstage hacc⟩
  · rw [List.getElem?_set_ne hne] at hr'
    exact ⟨r', hr', rfl, Or.inl hacc⟩

theorem sent_rpcs_sendNext (cfg : Config N) (s : Cluster N C) (k : ℕ) (t : Task N C)
    (rest : List N) : ∃ more, (s.sendNext cfg k t rest).rpcs = s.rpcs ++ more ∧
      ∀ r ∈ more, r.stage = .inFlight := by
  have none_sent : ∃ more, s.rpcs = s.rpcs ++ more ∧ ∀ r ∈ more, r.stage = .inFlight :=
    ⟨[], (List.append_nil _).symm, fun r hr => by cases hr⟩
  cases rest with
  | nil => exact none_sent
  | cons nodeId rest =>
    unfold sendNext
    cases (s.nodes t.node).leaderState with
    | none => exact none_sent
    | some ls => exact ⟨_, rfl, fun r hr => by rw [List.mem_singleton.mp hr]⟩

theorem sent_rpcs_sendAppendEntries (cfg : Config N) (s : Cluster N C) (k : ℕ) (t : Task N C) :
    ∃ more, (s.sendAppendEntries cfg k t).rpcs = s.rpcs ++ more ∧
      ∀ r ∈ more, r.stage = .inFlight := by
  unfold sendAppendEntries
  split
  · exact ⟨[], (List.append_nil _).symm, fun r hr => by cases hr⟩
  · exact sent_rpcs_sendNext cfg s k t _

theorem sent_rpcs_sendReturns (cfg : Config N) (s : Cluster N C) (k : ℕ) (t : Task N C)
    (o : Outgoing N C) (rest : List N) (response : Option (Message N Response)) :
    ∃ more, (s.sendReturns cfg k t o rest response).rpcs = s.rpcs ++ more ∧
      ∀ r ∈ more, r.stage = .inFlight := by
  unfold sendReturns
  split
  · exact ⟨[], (List.append_nil _).symm, fun r hr => by cases hr⟩
  · exact ⟨[], (List.append_nil _).symm, fun r hr => by cases hr⟩
  · exact sent_rpcs_sendNext cfg (s.setNode t.node _) k t rest

omit [DecidableEq N] in
/-- A handler accepts in the term of its node only. -/
theorem currentTerm_of_accepts {s : Cluster N C} {r : Rpc N C} {now : ℚ}
    (hterm : r.message.term ≤ (s.nodes r.dst).persistent.currentTerm) {leaderId : N}
    {prev prevTerm : ℕ} {entries : List (LogEntry C)} {leaderCommit : ℕ} {stage : Stage N}
    (hstage : stage = match ((s.nodes r.dst).handleAppendEntries r.dst now r.message.term leaderId
        prev prevTerm entries leaderCommit).2 with
      | some response => .answered response
      | none => .applying) (hacc : stage.accepted = true) :
    ((s.nodes r.dst).handleAppendEntries r.dst now r.message.term leaderId prev prevTerm entries
      leaderCommit).1.persistent.currentTerm = r.message.term := by
  rcases RaftNode.handleAppendEntries_cases r.dst now (s.nodes r.dst) r.message.term leaderId
    prev prevTerm entries leaderCommit with ⟨hlt, -⟩ | ⟨hle, haccepts⟩
  · rw [RaftNode.handleAppendEntries_of_lt _ _ _ _ _ _ hlt] at hstage
    rw [hstage] at hacc
    cases hacc
  · rw [haccepts.currentTerm]
    exact Nat.le_antisymm hle hterm

theorem acceptedFrom_handle {j : ℕ} {r : Rpc N C} (hr : s.rpcs[j]? = some r)
    (hnot : r.stage.accepted = false)
    (hterm : r.message.term ≤ (s.nodes r.dst).persistent.currentTerm) (now : ℚ) {k : ℕ}
    {r' : Rpc N C} (hr' : (s.handle j r now).rpcs[k]? = some r')
    (hacc : r'.stage.accepted = true) : AcceptedFrom s (s.handle j r now) k r' := by
  unfold handle at hr' ⊢
  split at hr'
  · rename_i candidateId lastLogIndex lastLogTerm hpay
    refine acceptedFrom_set hr rfl (fun hgranted => ?_) hr' hacc
    -- an answer to a candidate is no success
    rcases RaftNode.handleRequestVote_cases r.dst now (s.nodes r.dst) r.message.term candidateId
      lastLogIndex lastLogTerm with heq | ⟨-, -, heq⟩
    · rw [heq] at hgranted
      cases hgranted
    · rw [heq] at hgranted
      cases hgranted
  · rename_i leaderId prev prevTerm entries leaderCommit hpay
    refine acceptedFrom_set hr rfl (fun hstage => Or.inr ⟨?_, hnot⟩) hr' hacc
    refine (congrArg (fun n : RaftNode N C => n.persistent.currentTerm)
      (nodes_setNode_self s r.dst _)).trans ?_
    exact currentTerm_of_accepts hterm rfl hstage

theorem acceptedFrom_restart (i : N) (file : Option (PersistentState N C)) (now : ℚ) {j : ℕ}
    {r' : Rpc N C} (hr' : (s.restart i file now).rpcs[j]? = some r')
    (hacc : r'.stage.accepted = true) : AcceptedFrom s (s.restart i file now) j r' := by
  have hr' : (s.rpcs.map (dropHandler i))[j]? = some r' := hr'
  rw [List.getElem?_map] at hr'
  obtain ⟨r, hr, rfl⟩ := Option.map_eq_some_iff.mp hr'
  refine ⟨r, hr, (dropHandler_request i r).symm, Or.inl ?_⟩
  unfold dropHandler at hacc
  split at hacc
  · split at hacc
    · cases hacc
    · exact hacc
  · split at hacc
    · cases hacc
    · exact hacc
  · exact hacc

theorem acceptedFrom_step
    (hstepped : ∀ r ∈ s.rpcs, r.stage = .steppingDown →
      r.message.term ≤ (s.nodes r.dst).persistent.currentTerm) {a : Action N C}
    (h : s.step cfg a = some s') {k : ℕ} {r' : Rpc N C} (hr' : s'.rpcs[k]? = some r')
    (hacc : r'.stage.accepted = true) : AcceptedFrom s s' k r' := by
  have sent : (∃ more, s'.rpcs = s.rpcs ++ more ∧ ∀ r ∈ more, r.stage = .inFlight) →
      AcceptedFrom s s' k r' := by
    rintro ⟨more, hrpcs, hmore⟩
    exact acceptedFrom_append hrpcs hmore hr' hacc
  cases stepped h with
  | @electionTimeout i =>
    refine sent ⟨_, rfl, fun r hr => ?_⟩
    obtain ⟨d, -, rfl⟩ := List.mem_map.mp hr
    rfl
  | electionEnds =>
    refine acceptedFrom_of_eq ?_ hr' hacc
    unfold countVotes
    split <;> rfl
  | becameLeader => exact acceptedFrom_of_eq rfl hr' hacc
  | @propose i command =>
    exact sent (sent_rpcs_sendAppendEntries cfg
      ((s.setNode i ((s.nodes i).appendCommand command)).spawn _) _ _)
  | heartbeat => exact sent (sent_rpcs_sendAppendEntries cfg s _ _)
  | heartbeatEnds => exact acceptedFrom_of_eq rfl hr' hacc
  | reply => exact sent (sent_rpcs_sendReturns cfg s _ _ _ _ _)
  | noReply => exact sent (sent_rpcs_sendReturns cfg s _ _ _ _ _)
  | resumeSending => exact sent (sent_rpcs_sendNext cfg s _ _ _)
  | resumeApplying => exact acceptedFrom_of_eq rfl hr' hacc
  | raise => exact acceptedFrom_of_eq rfl hr' hacc
  | @deliver j now r hr hst =>
    unfold deliver at hr' ⊢
    split at hr'
    · rename_i hlt
      rw [if_pos hlt]
      exact acceptedFrom_set hr rfl (fun hstage => by cases hstage) hr' hacc
    · rename_i hle
      rw [if_neg hle]
      exact acceptedFrom_handle hr (by rw [hst]; rfl) (Nat.le_of_not_lt hle) now hr' hacc
  | resumeHandling hr hst =>
    exact acceptedFrom_handle hr (by rw [hst]; rfl) (hstepped _ (List.mem_of_getElem? hr) hst) _
      hr' hacc
  | resumeHandlerApplying hr hst =>
    exact acceptedFrom_set hr rfl (fun _ => Or.inl (by rw [hst]; rfl)) hr' hacc
  | raiseHandler hr => exact acceptedFrom_set hr rfl (fun hstage => by cases hstage) hr' hacc
  | crash => exact acceptedFrom_restart _ _ _ hr' hacc
  | crashSaving => exact acceptedFrom_restart _ _ _ hr' hacc

end Cluster

/-! ## The invariant -/

section Truth

variable [DecidableEq N] {cfg : Config N} {s s' : Cluster N C} {A A' : History N C}
  {acc acc' : N → ℕ → List (LogEntry C) → Prop}

/-- `f` accepted, in the term `T`, a log with the first `m` entries of the leader. -/
def Shares (A : History N C) (acc : N → ℕ → List (LogEntry C) → Prop) (f : N) (T m : ℕ) : Prop :=
  ∃ l, acc f T l ∧ l.take m = (A.leaderLog T).take m

theorem Shares.mono {f : N} {T m : ℕ} (h : Shares A acc f T m)
    (hA : Consistent LogEntry.term cfg.quorums A) (g : Extends A A') (hm : m ≤ A.acked T f)
    (hacc : ∀ f T l, acc f T l → acc' f T l) : Shares A' acc' f T m := by
  obtain ⟨l, hl, heq⟩ := h
  exact ⟨l, hacc f T l hl, heq.trans (hA.take_leaderLog g hm).symm⟩

structure Truthful (cfg : Config N) (acc : N → ℕ → List (LogEntry C) → Prop) (s : Cluster N C)
    (A : History N C) : Prop where
  rpcs : ∀ r ∈ s.rpcs, r.stage.accepted = true →
    ∀ leaderId prev prevTerm entries leaderCommit,
      r.message.payload = .appendEntries leaderId prev prevTerm entries leaderCommit →
      Shares A acc r.dst r.message.term (prev + entries.length)
  leaders : ∀ i ∈ cfg.nodes, ∀ ls, (s.nodes i).leaderState = some ls →
    ∀ f m, ls.matchIndex.get? f = some m → m = 0 ∨ Shares A acc f (A.term i) m

/-- What a node has acknowledged in its own term it has in its log. -/
theorem take_log_of_acked (hA : Consistent LogEntry.term cfg.quorums A) {f : N} {m : ℕ}
    (hm : m ≤ A.acked (A.term f) f) :
    (A.log f).take m = (A.leaderLog (A.term f)).take m := by
  have hlen : ((A.leaderLog (A.term f)).take m).length = m := by
    have := hA.acks_le (A.term f) f
    rw [List.length_take]
    omega
  rcases hA.retained (A.term f) f m hm with hprefix | ⟨T', i, Q, hlt, hlt', -⟩
  · have htake := take_eq_of_isPrefix hprefix (n := m) (by omega)
    rw [htake, List.take_take, min_self]
  · -- no term lies between `A.term f` and the next one
    omega

/-- An accepted AppendEntries shares its entries with the log of the leader. -/
theorem Truthful.rpcs_step (h : Coupled cfg True s A)
    (hA : Consistent LogEntry.term cfg.quorums A) (htrue : Truthful cfg acc s A)
    (h' : Coupled cfg True s' A') (hA' : Consistent LogEntry.term cfg.quorums A')
    (g : Extends A A') {a : Action N C} (hstep : s.step cfg a = some s')
    (hold : ∀ f T l, acc f T l → acc' f T l)
    (hnew : ∀ f T l, Cluster.AcceptsLog s s' f T l → acc' f T l) {r' : Rpc N C} (hr' : r' ∈ s'.rpcs)
    (hacc : r'.stage.accepted = true) {leaderId : N} {prev prevTerm : ℕ}
    {entries : List (LogEntry C)} {leaderCommit : ℕ}
    (hpay : r'.message.payload = .appendEntries leaderId prev prevTerm entries leaderCommit) :
    Shares A' acc' r'.dst r'.message.term (prev + entries.length) := by
  have hstepped : ∀ r ∈ s.rpcs, r.stage = .steppingDown →
      r.message.term ≤ (s.nodes r.dst).persistent.currentTerm := by
    intro r hr hst
    have hok := h.rpcs r hr
    rw [(h.nodes r.dst (Config.mem_getOtherNodes.mp hok.target).1).term_eq]
    exact hok.stepped hst
  obtain ⟨j, hj⟩ := List.mem_iff_getElem?.mp hr'
  obtain ⟨r, hr, hreq, hor⟩ := Cluster.acceptedFrom_step hstepped hstep hj hacc
  simp only [Rpc.request, Prod.mk.injEq] at hreq
  obtain ⟨-, hdst, hmsg⟩ := hreq
  have hmem := List.mem_of_getElem? hr
  rcases hor with hbefore | ⟨hterm, hbefore⟩
  · have hpay' : r.message.payload =
        .appendEntries leaderId prev prevTerm entries leaderCommit := by
      rw [hmsg]
      exact hpay
    rw [← hdst, ← hmsg]
    exact (htrue.rpcs r hmem hbefore _ _ _ _ _ hpay').mono hA g
      ((h.rpcs r hmem).accepted hbefore _ _ _ _ _ hpay') hold
  · have hok := h'.rpcs r' hr'
    have hn := h'.nodes r'.dst (Config.mem_getOtherNodes.mp hok.target).1
    have hacked := hok.accepted hacc _ _ _ _ _ hpay
    rw [hdst, hmsg, hn.term_eq] at hterm
    have haccepts : Cluster.AcceptsLog s s' r.dst r.message.term
        (s'.nodes r.dst).persistent.log :=
      .intro hr hj hbefore hacc (by rw [hmsg]; exact hpay)
    rw [hdst, hmsg, hn.log_eq] at haccepts
    rw [← hterm] at hacked haccepts ⊢
    exact ⟨A'.log r'.dst, hnew _ _ _ haccepts, take_log_of_acked hA' hacked⟩

/-- What a step books in `match_index` is true. -/
theorem Truthful.leaders_step (h : Coupled cfg True s A)
    (hA : Consistent LogEntry.term cfg.quorums A) (htrue : Truthful cfg acc s A)
    (h' : Coupled cfg True s' A') (g : Extends A A') {a : Action N C}
    (hstale : s.staleSuccess a = false) (hstep : s.step cfg a = some s')
    (hold : ∀ f T l, acc f T l → acc' f T l) {i : N} (hi : i ∈ cfg.nodes) {ls' : LeaderState N}
    (hls' : (s'.nodes i).leaderState = some ls') {f : N} {m : ℕ}
    (hm : ls'.matchIndex.get? f = some m) : m = 0 ∨ Shares A' acc' f (A'.term i) m := by
  have hn := h.nodes i hi
  have hlead' := (h'.nodes i hi).state_of_leaderState hls'
  -- a node that stays leader stays in its term
  have hsame : (s.nodes i).state = .leader → A'.term i = A.term i := by
    intro hlead
    rw [← (h'.nodes i hi).term_eq, ← hn.term_eq]
    exact (roleStep_step hstep i).currentTerm_of_leader hlead hlead'
  cases Cluster.matchesFrom_step hstep i ls' hls' f m hm with
  | @old ls hls hmatch =>
    rw [hsame (hn.state_of_leaderState hls)]
    refine (htrue.leaders i hi ls hls f m hmatch).imp_right fun hshares => ?_
    exact hshares.mono hA g (hn.matched trivial ls hls f m hmatch).2 hold
  | zero hz => exact Or.inl hz
  | @booked o ho hsome hf hsum =>
    obtain ⟨k, kind, j, rest, response, rfl, ht, hans, hsuccess, hentries⟩ := ho
    have hlead := hn.leaderState.mp hsome
    have hpc := (PcOk.of_getElem? h ht).2
    obtain ⟨r, hr, hacked⟩ := h.acked_of_success hpc hans hsuccess
    have hterm := Cluster.fresh_of_staleSuccess hstale ht hans hr hsuccess hentries hlead
    obtain ⟨⟨T, prevTerm, leaderCommit, hreq⟩, -, -⟩ := hpc
    rw [hr] at hreq
    simp only [Option.map_some, Option.some.injEq, Rpc.request, Prod.mk.injEq] at hreq
    obtain ⟨-, hdst, hmsg⟩ := hreq
    obtain ⟨r₀, hr₀, hstage⟩ := Cluster.answerOf_eq_some hans
    obtain rfl : r₀ = r := Option.some.inj (hr₀.symm.trans hr)
    have hshares := htrue.rpcs r₀ (List.mem_of_getElem? hr) (by rw [hstage]; exact hsuccess)
      i o.prevLogIndex prevTerm o.entries leaderCommit (by rw [hmsg])
    have hA'term : A'.term i = r₀.message.term := by rw [hsame hlead, ← hn.term_eq, hterm]
    rw [hdst] at hshares
    rw [hA'term, hf, hsum]
    exact Or.inr (hshares.mono hA g hacked hold)

theorem Truthful.step (h : Coupled cfg True s A) (hA : Consistent LogEntry.term cfg.quorums A)
    (htrue : Truthful cfg acc s A) (h' : Coupled cfg True s' A')
    (hA' : Consistent LogEntry.term cfg.quorums A') (g : Extends A A') {a : Action N C}
    (hstale : s.staleSuccess a = false) (hstep : s.step cfg a = some s')
    (hold : ∀ f T l, acc f T l → acc' f T l)
    (hnew : ∀ f T l, Cluster.AcceptsLog s s' f T l → acc' f T l) : Truthful cfg acc' s' A' where
  rpcs _ hr' hacc _ _ _ _ _ hpay :=
    htrue.rpcs_step h hA h' hA' g hstep hold hnew hr' hacc hpay
  leaders _ hi _ hls' _ _ hm := htrue.leaders_step h hA h' g hstale hstep hold hi hls' hm

theorem Truthful.run {start : N → ℚ} {acts : List (Action N C)}
    (hacts : (Cluster.boot start).EachStep cfg (Followed True) acts)
    (hrun : (Cluster.boot start).run cfg acts = some s) :
    ∃ A, Consistent LogEntry.term cfg.quorums A ∧ Coupled cfg True s A ∧
      Truthful cfg (Cluster.Accepted cfg (Cluster.boot start) acts) s A := by
  induction acts using List.reverseRecOn generalizing s with
  | nil =>
    obtain rfl := Option.some.inj hrun
    exact ⟨init, consistent_init, coupled_boot cfg True start,
      { rpcs := fun r hr => by cases hr
        leaders := fun i _ ls hls => by cases hls }⟩
  | append_singleton acts a ih =>
    rw [Cluster.run, Transition.run_append] at hrun
    obtain ⟨t, ht, hlast⟩ := Option.bind_eq_some_iff.mp hrun
    obtain ⟨s', hstep, hnil⟩ := Transition.run_cons hlast
    obtain rfl := Option.some.inj hnil
    obtain ⟨hbefore, hafter⟩ := Transition.EachStep.append hacts
    have ha := (hafter t ht).1
    obtain ⟨A, hA, h, htrue⟩ := ih hbefore ht
    obtain ⟨A', g, hA', h'⟩ := Simulated.step h hA ha.1 ha.2 hstep
    refine ⟨A', hA', h', htrue.step h hA h' hA' g (ha.2 trivial) hstep ?_ ?_⟩
    · exact fun f T l hl => hl.snoc a
    · exact fun f T l hl => hl.accepted ht hstep

end Truth

/-! ## Every `match_index` is true -/

namespace Cluster

variable [DecidableEq N] {cfg : Config N} {start : N → ℚ}

/-- If no stale success is booked, a leader counts only what the follower has accepted from it. -/
theorem match_index_truthful {acts : List (Action N C)} {s : Cluster N C}
    (hsave : ∀ a ∈ acts, a.savesWhole = true)
    (hfresh : (boot start).EachStep cfg (fun t a => t.staleSuccess a = false) acts)
    (hrun : (boot start).run cfg acts = some s) {i : N} (hi : i ∈ cfg.nodes)
    (hlead : (s.nodes i).state = .leader) :
    ∃ ls, (s.nodes i).leaderState = some ls ∧ ∀ f m, ls.matchIndex.get? f = some m →
      m ≤ (s.nodes i).persistent.log.length ∧
      (m = 0 ∨ ∃ l, (boot start).Accepted cfg acts f (s.nodes i).persistent.currentTerm l ∧
        l.take m = (s.nodes i).persistent.log.take m) := by
  have hacts : (boot start).EachStep cfg (Followed True) acts :=
    hfresh.imp fun t a ha hstale => ⟨hsave a ha, fun _ => hstale⟩
  obtain ⟨A, hA, h, htrue⟩ := Truthful.run hacts hrun
  have hn := h.nodes i hi
  obtain ⟨Q, -, hL⟩ := hn.leads hlead
  obtain ⟨ls, hls⟩ := Option.isSome_iff_exists.mp (hn.leaderState.mpr hlead)
  refine ⟨ls, hls, fun f m hm => ?_⟩
  have hle : m ≤ (A.leaderLog (A.term i)).length :=
    (hn.matched trivial ls hls f m hm).2.trans (hA.acks_le _ _)
  rw [hn.log_eq, hn.term_eq, ← hL]
  exact ⟨hle, htrue.leaders i hi ls hls f m hm⟩

/-- Node 0 leads term 1, and node 1 has accepted its first entry. -/
theorem match_index_truthful_replication :
    ∃ (s : Cluster (Fin 3) ℕ) (ls : LeaderState (Fin 3)),
      (s.nodes 0).leaderState = some ls ∧ ls.matchIndex.get? 1 = some 1 ∧
      ∃ l, (boot fun _ => 0).Accepted threeNodes (electionOfZero ++ replication) 1
        (s.nodes 0).persistent.currentTerm l ∧ l.take 1 = (s.nodes 0).persistent.log.take 1 := by
  have hrun : ((boot fun _ => 0 : Cluster (Fin 3) ℕ).run threeNodes
      (electionOfZero ++ replication)).any (fun s => decide ((s.nodes 0).state = .leader) &&
        (s.nodes 0).leaderState.any fun ls => ls.matchIndex.get? 1 == some 1) = true := by
    decide +kernel
  obtain ⟨s, hs, hp⟩ := (Option.any_eq_true _ _).mp hrun
  obtain ⟨hlead, hany⟩ := Bool.and_eq_true_iff.mp hp
  obtain ⟨ls₀, hls₀, hm⟩ := (Option.any_eq_true _ _).mp hany
  have hm := eq_of_beq hm
  have hfresh : (boot fun _ => 0 : Cluster (Fin 3) ℕ).EachStep threeNodes
      (fun t a => t.staleSuccess a = false) (electionOfZero ++ replication) := by
    decide +kernel
  obtain ⟨ls, hls, hmatch⟩ := match_index_truthful (i := 0) (by decide) hfresh hs (by decide)
    (of_decide_eq_true hlead)
  obtain rfl := Option.some.inj (hls₀.symm.trans hls)
  obtain ⟨-, hzero | htrue⟩ := hmatch 1 1 hm
  · cases hzero
  · exact ⟨s, ls₀, hls, hm, htrue⟩

/-- Node 0 leads again, in term 3, and books the late answer of node 1. -/
def staleSuccessBooked : List (Action (Fin 5) ℕ) :=
  waitingForAnswer ++ List.flatten [[.electionTimeout 0 (1 / 5) 5], handled 14 5, handled 15 5,
    [.electionEnds 0 [3, 4], .becameLeader 0, .reply 3]]

/-- The leader believes that node 1 has three entries of its log, which has one. -/
theorem stale_success_overstates :
    ∃ (s : Cluster (Fin 5) ℕ) (ls : LeaderState (Fin 5)),
      (boot fun _ => 0).run fiveNodes staleSuccessBooked = some s ∧
      (∀ a ∈ staleSuccessBooked, a.crashFree = true) ∧ (s.nodes 0).state = .leader ∧
      (s.nodes 0).leaderState = some ls ∧ ls.matchIndex.get? 1 = some 3 ∧
      (s.nodes 0).persistent.log.length = 1 := by
  have hrun : ((boot fun _ => 0 : Cluster (Fin 5) ℕ).run fiveNodes staleSuccessBooked).any
      (fun s => decide ((s.nodes 0).state = .leader) &&
        decide ((s.nodes 0).persistent.log.length = 1) &&
        (s.nodes 0).leaderState.any fun ls => ls.matchIndex.get? 1 == some 3) = true := by
    decide +kernel
  obtain ⟨s, hs, hp⟩ := (Option.any_eq_true _ _).mp hrun
  obtain ⟨hp, hany⟩ := Bool.and_eq_true_iff.mp hp
  obtain ⟨hlead, hlen⟩ := Bool.and_eq_true_iff.mp hp
  obtain ⟨ls, hls, hm⟩ := (Option.any_eq_true _ _).mp hany
  exact ⟨s, ls, hs, by decide, of_decide_eq_true hlead, hls, eq_of_beq hm, of_decide_eq_true hlen⟩

end Cluster

end Pynchronize
