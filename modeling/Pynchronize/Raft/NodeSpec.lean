import Pynchronize.Lib.LeaderCompleteness
import Pynchronize.Raft.Node

/-!
# What each method does to the node

One equation or case lemma for each method of `RaftNode`; the proofs about
clusters use these and never unfold the methods.
-/

namespace Pynchronize

open Lib Lib.Replication

variable {N C : Type*}

/-! ## Logs -/

/-- Every entry sits at its own index. -/
def Indexed (l : List (LogEntry C)) : Prop :=
  ∀ p e, l[p]? = some e → e.index = p + 1

theorem indexed_nil : Indexed ([] : List (LogEntry C)) := by
  intro p e he
  simp at he

theorem Indexed.of_isPrefix {l l' : List (LogEntry C)} (h : Indexed l) (hp : l' <+: l) :
    Indexed l' :=
  fun p e he => h p e (getElem?_of_isPrefix hp he)

theorem Indexed.append {l : List (LogEntry C)} {e : LogEntry C} (h : Indexed l)
    (he : e.index = l.length + 1) : Indexed (l ++ [e]) := by
  intro p x hx
  rcases lt_or_ge p l.length with hp | hp
  · rw [List.getElem?_append_left hp] at hx
    exact h p x hx
  · have hlen := (List.getElem?_eq_some_iff.mp hx).1
    have hp' : p = l.length := by simp at hlen; omega
    subst hp'
    have hxe : e = x := by simpa using hx
    rw [← hxe, he]

namespace RaftNode

theorem getLastLogTerm_eq (n : RaftNode N C) :
    n.getLastLogTerm = lastTerm LogEntry.term n.persistent.log := by
  unfold getLastLogTerm lastTerm
  cases n.persistent.log.getLast? with
  | none => rfl
  | some e => rfl

theorem getLastLogIndex_eq {n : RaftNode N C} (h : Indexed n.persistent.log) :
    n.getLastLogIndex = n.persistent.log.length := by
  unfold getLastLogIndex
  cases hl : n.persistent.log.getLast? with
  | none => simp [List.getLast?_eq_none_iff.mp hl]
  | some e =>
    have hne : n.persistent.log ≠ [] := by
      intro hnil
      simp [hnil] at hl
    have hpos := List.length_pos_iff.mpr hne
    rw [List.getLast?_eq_getElem?] at hl
    have := h _ e hl
    show e.index = _
    omega

theorem getLogEntry_succ (n : RaftNode N C) (p : ℕ) :
    n.getLogEntry (p + 1) = n.persistent.log[p]? := by
  unfold getLogEntry
  split
  · rename_i h
    rw [List.getElem?_eq_none (by omega)]
  · rfl

theorem getLogEntry_eq_some {n : RaftNode N C} {k : ℕ} {e : LogEntry C}
    (h : n.getLogEntry k = some e) : 0 < k ∧ n.persistent.log[k - 1]? = some e := by
  cases k with
  | zero => cases h
  | succ p =>
    rw [getLogEntry_succ] at h
    exact ⟨Nat.succ_pos p, h⟩

/-! ## The commit index and the calls of the command handler -/

/-- The node with another volatile state and record of calls; everything the other nodes can
    observe of it is the same. -/
def withVolatile (n : RaftNode N C) (v : VolatileState) (calls : List (ℕ × C)) : RaftNode N C :=
  { n with volatile := v, applied := calls }

/-- `lastApplied` and the calls of `command_handler` after at most one more of them. -/
inductive Applies (n : RaftNode N C) : ℕ → List (ℕ × C) → Prop
  | idle : Applies n n.volatile.lastApplied n.applied
  | call {e : LogEntry C} (hlt : n.volatile.lastApplied < n.volatile.commitIndex)
      (he : n.persistent.log[n.volatile.lastApplied]? = some e) :
      Applies n (n.volatile.lastApplied + 1)
        (n.applied ++ [(n.volatile.lastApplied + 1, e.command)])

theorem applyLoop_eq (k : ℕ) (n : RaftNode N C) :
    ∃ a calls, (applyLoop k n).1 = n.withVolatile { n.volatile with lastApplied := a } calls := by
  induction k generalizing n with
  | zero => exact ⟨n.volatile.lastApplied, n.applied, rfl⟩
  | succ k ih =>
    unfold applyLoop
    dsimp only
    split
    · exact ⟨_, _, rfl⟩
    · obtain ⟨a, calls, h⟩ := ih
        { n with volatile := { n.volatile with lastApplied := n.volatile.lastApplied + 1 } }
      exact ⟨a, calls, h⟩

theorem applyCommitted_eq (n : RaftNode N C) :
    ∃ a calls, n.applyCommitted.1 = n.withVolatile { n.volatile with lastApplied := a } calls ∧
      (n.volatile.commitIndex ≤ n.persistent.log.length → Applies n a calls) := by
  unfold applyCommitted
  cases hk : n.volatile.commitIndex - n.volatile.lastApplied with
  | zero => exact ⟨n.volatile.lastApplied, n.applied, rfl, fun _ => .idle⟩
  | succ k =>
    cases he : n.persistent.log[n.volatile.lastApplied]? with
    | some e =>
      refine ⟨n.volatile.lastApplied + 1,
        n.applied ++ [(n.volatile.lastApplied + 1, e.command)], ?_,
        fun _ => .call (by omega) he⟩
      have hentry : getLogEntry { n with volatile :=
          { n.volatile with lastApplied := n.volatile.lastApplied + 1 } }
          (n.volatile.lastApplied + 1) = some e := by
        rw [getLogEntry_succ]
        exact he
      simp only [applyLoop, hentry]
      rfl
    | none =>
      -- a commit index inside the log rules this out
      obtain ⟨a, calls, h⟩ := applyLoop_eq (k + 1) n
      refine ⟨a, calls, h, fun hc => ?_⟩
      have := List.getElem?_eq_none_iff.mp he
      omega

/-- An index that `_try_commit` may commit: an entry of the current term on a majority. -/
structure Committable (cfg : Config N) (ls : LeaderState N) (n : RaftNode N C) (k : ℕ) : Prop where
  entry : ∃ e, n.getLogEntry k = some e ∧ e.term = n.persistent.currentTerm
  majority : cfg.getMajority ≤ matchCount ls k

theorem tryCommitAt_eq (cfg : Config N) (ls : LeaderState N) (n : RaftNode N C) (k : ℕ) :
    tryCommitAt cfg ls n k = n ∨
      Committable cfg ls n k ∧
        tryCommitAt cfg ls n k = n.withVolatile { n.volatile with commitIndex := k } n.applied := by
  unfold tryCommitAt
  cases he : n.getLogEntry k with
  | none => exact Or.inl rfl
  | some e =>
    dsimp only
    split
    · exact Or.inl rfl
    · rename_i hterm
      split
      · rename_i hmaj
        exact Or.inr ⟨⟨⟨e, he, not_not.mp hterm⟩, hmaj⟩, rfl⟩
      · exact Or.inl rfl

theorem foldl_tryCommitAt_eq (cfg : Config N) (ls : LeaderState N) (ks : List ℕ)
    (n : RaftNode N C) :
    ∃ c, ks.foldl (tryCommitAt cfg ls) n =
        n.withVolatile { n.volatile with commitIndex := c } n.applied ∧
      (c = n.volatile.commitIndex ∨ c ∈ ks ∧ Committable cfg ls n c) := by
  induction ks generalizing n with
  | nil => exact ⟨n.volatile.commitIndex, rfl, Or.inl rfl⟩
  | cons k ks ih =>
    rw [List.foldl_cons]
    rcases tryCommitAt_eq cfg ls n k with h | ⟨hk, h⟩
    · obtain ⟨c, hc, hor⟩ := ih n
      rw [h]
      exact ⟨c, hc, hor.imp_right fun h => ⟨List.mem_cons_of_mem _ h.1, h.2⟩⟩
    · obtain ⟨c, hc, hor⟩ := ih (n.withVolatile { n.volatile with commitIndex := k } n.applied)
      rw [h]
      refine ⟨c, hc, Or.inr ?_⟩
      rcases hor with rfl | ⟨hmem, hcom⟩
      · exact ⟨List.mem_cons_self .., hk⟩
      · exact ⟨List.mem_cons_of_mem _ hmem, ⟨hcom.entry, hcom.majority⟩⟩

theorem tryCommit_eq (cfg : Config N) (n : RaftNode N C) :
    (n.tryCommit cfg).1 = n ∨
      ∃ ls c, n.leaderState = some ls ∧
        (c = n.volatile.commitIndex ∨ n.volatile.commitIndex < c ∧ Committable cfg ls n c) ∧
        (n.tryCommit cfg).1 =
          (n.withVolatile { n.volatile with commitIndex := c } n.applied).applyCommitted.1 := by
  unfold tryCommit
  split
  · rename_i ls hs hls
    obtain ⟨c, hc, hor⟩ := foldl_tryCommitAt_eq cfg ls (List.range' (n.volatile.commitIndex + 1)
      (n.persistent.log.length - n.volatile.commitIndex)) n
    refine Or.inr ⟨ls, c, hls, hor.imp_right fun h => ⟨?_, h.2⟩,
      congrArg (fun m : RaftNode N C => m.applyCommitted.1) hc⟩
    have := (List.mem_range'_1.mp h.1).1
    omega
  · exact Or.inl rfl

theorem followCommit_eq (n : RaftNode N C) (leaderCommit : ℕ) :
    (n.followCommit leaderCommit).1 = n ∨
      n.volatile.commitIndex < leaderCommit ∧
      (n.followCommit leaderCommit).1 =
        (n.withVolatile
          { n.volatile with commitIndex := min leaderCommit n.getLastLogIndex }
          n.applied).applyCommitted.1 := by
  unfold followCommit
  split
  · rename_i h
    exact Or.inr ⟨h, rfl⟩
  · exact Or.inl rfl

/-! ## Responses -/

/-- What a response to `o` makes of its sender, and whether it suspends in `_step_down`. -/
inductive Responds [DecidableEq N] (n : RaftNode N C) (o : Outgoing N C) :
    Option (Message N Response) → RaftNode N C → Bool → Prop
  | passes {response : Option (Message N Response)} : Responds n o response n false
  | books {message : Message N Response} {ls : LeaderState N}
      (hsuccess : message.payload.success = true) (hentries : o.entries.isEmpty = false)
      (hls : n.leaderState = some ls) :
      Responds n o (some message)
        { n with
          leaderState := some
            { nextIndex := ls.nextIndex.set o.nodeId (o.prevLogIndex + o.entries.length + 1)
              matchIndex := ls.matchIndex.set o.nodeId (o.prevLogIndex + o.entries.length) } }
        false
  | backsOff {message : Message N Response} {ls : LeaderState N}
      (hls : n.leaderState = some ls) :
      Responds n o (some message)
        { n with
          leaderState := some
            { ls with nextIndex := ls.nextIndex.set o.nodeId (max 1 (o.nextIdx - 1)) } } false
  | stepsDown {message : Message N Response} (hfail : message.payload.success = false)
      (hlt : n.persistent.currentTerm < message.term) :
      Responds n o (some message) (n.stepDown message.term) true

theorem responds [DecidableEq N] {n n' : RaftNode N C} {o : Outgoing N C}
    {response : Option (Message N Response)} {suspended : Bool}
    (h : n.handleResponse o response = some (n', suspended)) :
    Responds n o response n' suspended := by
  cases response with
  | none =>
    obtain ⟨rfl, rfl⟩ := Prod.mk.inj (Option.some.inj h)
    exact .passes
  | some message =>
    unfold handleResponse at h
    dsimp only at h
    split at h
    · rename_i hsuccess
      split at h
      · obtain ⟨rfl, rfl⟩ := Prod.mk.inj (Option.some.inj h)
        exact .passes
      · rename_i hentries
        obtain ⟨ls, hls, heq⟩ := Option.map_eq_some_iff.mp h
        obtain ⟨rfl, rfl⟩ := Prod.mk.inj heq
        exact .books hsuccess (by simpa using hentries) hls
    · rename_i hfail
      split at h
      · rename_i hlt
        obtain ⟨rfl, rfl⟩ := Prod.mk.inj (Option.some.inj h)
        exact .stepsDown (by simpa using hfail) hlt
      · obtain ⟨ls, hls, heq⟩ := Option.map_eq_some_iff.mp h
        obtain ⟨rfl, rfl⟩ := Prod.mk.inj heq
        exact .backsOff hls

/-! ## Votes -/

/-- Node `d` has granted its vote in one of the answers. -/
def Grants (responses : List (N × Option (Message N Response))) (d : N) : Prop :=
  ∃ message, (d, some message) ∈ responses ∧ message.payload.voteGranted = true

theorem grants_cons (response : N × Option (Message N Response))
    (rest : List (N × Option (Message N Response))) (d : N) :
    Grants (response :: rest) d ↔ Grants [response] d ∨ Grants rest d := by
  unfold Grants
  rw [← exists_or]
  refine exists_congr fun message => ?_
  rw [← or_and_right, List.mem_cons, List.mem_singleton]

/-- One answer changes `votes_received` at most. -/
theorem collectVote_eq [DecidableEq N] (n : RaftNode N C)
    (response : N × Option (Message N Response)) :
    ∃ votes, n.collectVote response = { n with votesReceived := votes } ∧
      (∀ d, d ∈ votes.keys ↔ Grants [response] d ∨ d ∈ n.votesReceived.keys) ∧
      (response.2 = none → votes = n.votesReceived) := by
  obtain ⟨voter, answer⟩ := response
  cases answer with
  | none =>
    refine ⟨n.votesReceived, rfl, fun d => (or_iff_right ?_).symm, fun _ => rfl⟩
    rintro ⟨message, hmem, -⟩
    cases List.mem_singleton.mp hmem
  | some message =>
    by_cases hgranted : message.payload.voteGranted = true
    · refine ⟨n.votesReceived.set voter true, if_pos hgranted, fun d => ?_, fun h => by cases h⟩
      rw [Dict.mem_keys_set]
      refine or_congr_left ⟨?_, ?_⟩
      · rintro rfl
        exact ⟨message, List.mem_singleton_self _, hgranted⟩
      · rintro ⟨other, hmem, -⟩
        exact (Prod.mk.inj (List.mem_singleton.mp hmem)).1
    · refine ⟨n.votesReceived, if_neg hgranted, fun d => (or_iff_right ?_).symm,
        fun h => by cases h⟩
      rintro ⟨other, hmem, hother⟩
      obtain rfl := Option.some.inj (Prod.mk.inj (List.mem_singleton.mp hmem)).2
      exact hgranted hother

/-- The votes are those that came and those there were. -/
theorem foldl_collectVote_eq [DecidableEq N] (n : RaftNode N C)
    (responses : List (N × Option (Message N Response))) :
    ∃ votes, responses.foldl collectVote n = { n with votesReceived := votes } ∧
      (∀ d, d ∈ votes.keys ↔ Grants responses d ∨ d ∈ n.votesReceived.keys) ∧
      ((∀ response ∈ responses, response.2 = none) → votes = n.votesReceived) := by
  induction responses generalizing n with
  | nil =>
    refine ⟨n.votesReceived, rfl, fun d => (or_iff_right ?_).symm, fun _ => rfl⟩
    rintro ⟨message, hmem, -⟩
    cases hmem
  | cons response rest ih =>
    obtain ⟨votes, heq, hkeys, hnone⟩ := ih (n.collectVote response)
    obtain ⟨v, hv, hkeys', hnone'⟩ := n.collectVote_eq response
    rw [hv] at heq hkeys hnone
    refine ⟨votes, by rw [List.foldl_cons, hv, heq], fun d => ?_, fun h => ?_⟩
    · refine (hkeys d).trans ((or_congr_right (hkeys' d)).trans ?_)
      rw [grants_cons response rest, or_left_comm, or_assoc]
    · rw [hnone fun r hr => h r (List.mem_cons_of_mem _ hr)]
      exact hnone' (h _ (List.mem_cons_self ..))

/-! ## Handling AppendEntries -/

/-- The node after it heard of the leader of its term. -/
def heard (n : RaftNode N C) (now : ℚ) (leaderId : N) : RaftNode N C :=
  { n with
    lastHeartbeat := now
    currentLeader := some leaderId
    state := if n.state = .candidate then .follower else n.state }

theorem mergeEntries_eq (n : RaftNode N C) (entries : List (LogEntry C)) :
    ∃ file, n.mergeEntries entries = { n with
      persistent := { n.persistent with log := entries.foldl mergeEntry n.persistent.log }
      stateFile := file } := by
  unfold mergeEntries
  dsimp only
  split
  · exact ⟨n.stateFile, rfl⟩
  · exact ⟨_, rfl⟩

theorem log_mergeEntries (n : RaftNode N C) (entries : List (LogEntry C)) :
    (n.mergeEntries entries).persistent.log = entries.foldl mergeEntry n.persistent.log := by
  obtain ⟨file, heq⟩ := n.mergeEntries_eq entries
  rw [heq]

section Handler

variable (nodeId : N) (now : ℚ) (n : RaftNode N C) {term : ℕ} (leaderId : N)
  {prevLogIndex prevLogTerm : ℕ} (entries : List (LogEntry C)) (leaderCommit : ℕ)

/-- An AppendEntries of an older term only resets the election timer. -/
theorem handleAppendEntries_of_lt (h : term < n.persistent.currentTerm) :
    n.handleAppendEntries nodeId now term leaderId prevLogIndex prevLogTerm entries leaderCommit =
      ({ n with lastHeartbeat := now }, some (n.appendEntriesResponse nodeId false)) := by
  unfold handleAppendEntries
  exact if_pos h

theorem handleAppendEntries_of_le (h : n.persistent.currentTerm ≤ term) :
    n.handleAppendEntries nodeId now term leaderId prevLogIndex prevLogTerm entries leaderCommit =
      if n.matchesPrev prevLogIndex prevLogTerm then
        ((((n.heard now leaderId).mergeEntries entries).followCommit leaderCommit).1,
          if (((n.heard now leaderId).mergeEntries entries).followCommit leaderCommit).2 then none
          else some ((((n.heard now leaderId).mergeEntries entries).followCommit
            leaderCommit).1.appendEntriesResponse nodeId true))
      else
        (n.heard now leaderId,
          some ((n.heard now leaderId).appendEntriesResponse nodeId false)) := by
  have hheard : (if n.state = .candidate then
      ({ n with lastHeartbeat := now, currentLeader := some leaderId, state := .follower } :
        RaftNode N C)
      else { n with lastHeartbeat := now, currentLeader := some leaderId }) =
      n.heard now leaderId := by
    unfold heard
    split <;> rfl
  unfold handleAppendEntries
  dsimp only
  rw [if_neg (Nat.not_lt.mpr h), hheard]
  rfl

theorem handleAppendEntries_of_not_matches (h : n.persistent.currentTerm ≤ term)
    (hm : n.matchesPrev prevLogIndex prevLogTerm = false) :
    n.handleAppendEntries nodeId now term leaderId prevLogIndex prevLogTerm entries leaderCommit =
      (n.heard now leaderId, some ((n.heard now leaderId).appendEntriesResponse nodeId false)) := by
  rw [handleAppendEntries_of_le nodeId now n leaderId entries leaderCommit h, hm]
  rfl

theorem handleAppendEntries_of_matches (h : n.persistent.currentTerm ≤ term)
    (hm : n.matchesPrev prevLogIndex prevLogTerm = true) :
    n.handleAppendEntries nodeId now term leaderId prevLogIndex prevLogTerm entries leaderCommit =
      ((((n.heard now leaderId).mergeEntries entries).followCommit leaderCommit).1,
        if (((n.heard now leaderId).mergeEntries entries).followCommit leaderCommit).2 then none
        else some ((((n.heard now leaderId).mergeEntries entries).followCommit
          leaderCommit).1.appendEntriesResponse nodeId true)) := by
  rw [handleAppendEntries_of_le nodeId now n leaderId entries leaderCommit h, hm]
  rfl

end Handler

/-! ## The role of the node -/

/-- `n'` is in no role and no term that `n` was not in. -/
structure KeepsRole (n n' : RaftNode N C) : Prop where
  electionTask : n'.electionTask = n.electionTask
  currentTerm : n'.persistent.currentTerm = n.persistent.currentTerm
  candidate : n'.state = .candidate → n.state = .candidate
  leader : n'.state = .leader → n.state = .leader

theorem KeepsRole.refl (n : RaftNode N C) : KeepsRole n n := ⟨rfl, rfl, id, id⟩

theorem KeepsRole.trans {n n' n'' : RaftNode N C} (h : KeepsRole n n') (h' : KeepsRole n' n'') :
    KeepsRole n n'' :=
  ⟨h'.electionTask.trans h.electionTask, h'.currentTerm.trans h.currentTerm,
    fun hs => h.candidate (h'.candidate hs), fun hs => h.leader (h'.leader hs)⟩

theorem keepsRole_withVolatile (n : RaftNode N C) (v : VolatileState) (calls : List (ℕ × C)) :
    KeepsRole n (n.withVolatile v calls) := ⟨rfl, rfl, id, id⟩

theorem keepsRole_applyCommitted (n : RaftNode N C) : KeepsRole n n.applyCommitted.1 := by
  obtain ⟨a, calls, heq, -⟩ := n.applyCommitted_eq
  rw [heq]
  exact keepsRole_withVolatile n _ _

theorem keepsRole_tryCommit (cfg : Config N) (n : RaftNode N C) :
    KeepsRole n (n.tryCommit cfg).1 := by
  rcases n.tryCommit_eq cfg with heq | ⟨ls, c, -, -, heq⟩
  · rw [heq]
    exact KeepsRole.refl n
  · rw [heq]
    exact (keepsRole_withVolatile n _ _).trans (keepsRole_applyCommitted _)

theorem keepsRole_followCommit (n : RaftNode N C) (leaderCommit : ℕ) :
    KeepsRole n (n.followCommit leaderCommit).1 := by
  rcases n.followCommit_eq leaderCommit with heq | ⟨-, heq⟩
  · rw [heq]
    exact KeepsRole.refl n
  · rw [heq]
    exact (keepsRole_withVolatile n _ _).trans (keepsRole_applyCommitted _)

theorem keepsRole_mergeEntries (n : RaftNode N C) (entries : List (LogEntry C)) :
    KeepsRole n (n.mergeEntries entries) := by
  unfold mergeEntries
  dsimp only
  split
  · exact ⟨rfl, rfl, id, id⟩
  · exact ⟨rfl, rfl, id, id⟩

theorem keepsRole_handleRequestVote [DecidableEq N] (nodeId : N) (now : ℚ) (n : RaftNode N C)
    (term : ℕ) (candidateId : N) (lastLogIndex lastLogTerm : ℕ) :
    KeepsRole n
      (n.handleRequestVote nodeId now term candidateId lastLogIndex lastLogTerm).1 := by
  unfold handleRequestVote
  dsimp only
  split
  · exact ⟨rfl, rfl, id, id⟩
  · exact KeepsRole.refl n

theorem keepsRole_handleAppendEntries (nodeId : N) (now : ℚ) (n : RaftNode N C) (term : ℕ)
    (leaderId : N) (prevLogIndex prevLogTerm : ℕ) (entries : List (LogEntry C))
    (leaderCommit : ℕ) :
    KeepsRole n (n.handleAppendEntries nodeId now term leaderId prevLogIndex prevLogTerm entries
      leaderCommit).1 := by
  have hheard : KeepsRole n (n.heard now leaderId) := by
    refine ⟨rfl, rfl, fun hs => ?_, fun hs => ?_⟩
    · dsimp only [heard] at hs
      split at hs
      · cases hs
      · exact hs
    · dsimp only [heard] at hs
      split at hs
      · cases hs
      · exact hs
  rcases Nat.lt_or_ge term n.persistent.currentTerm with hlt | hge
  · rw [handleAppendEntries_of_lt nodeId now n leaderId entries leaderCommit hlt]
    exact ⟨rfl, rfl, id, id⟩
  · rw [handleAppendEntries_of_le nodeId now n leaderId entries leaderCommit hge]
    split
    · exact hheard.trans ((keepsRole_mergeEntries _ _).trans (keepsRole_followCommit _ _))
    · exact hheard

end RaftNode

/-! ## Merging entries -/

theorem mergeTake_take [DecidableEq C] (source : List (LogEntry C)) {k m : ℕ} (h : k ≤ m) :
    mergeTake source m (source.take k) = source.take m := by
  unfold mergeTake
  split
  · rename_i hp
    have hk : source.take k <+: source.take m := List.take_prefix_take_left h
    exact hk.eq_of_length (Nat.le_antisymm hk.length_le hp.length_le)
  · rfl

/-- Two logs that hold entries of one term at one place agree up to it. -/
def Matching (l l' : List (LogEntry C)) : Prop :=
  ∀ p e e', l[p]? = some e → l'[p]? = some e' → e.term = e'.term →
    l.take (p + 1) = l'.take (p + 1)

theorem mergeEntry_of_getElem? {log : List (LogEntry C)} {entry existing : LogEntry C} {p : ℕ}
    (hindex : entry.index = p + 1) (he : log[p]? = some existing) :
    RaftNode.mergeEntry log entry =
      if existing.term ≠ entry.term then log.take p ++ [entry] else log := by
  have hp := (List.getElem?_eq_some_iff.mp he).1
  unfold RaftNode.mergeEntry
  rw [hindex, if_pos (show p + 1 ≤ log.length from hp), Nat.add_sub_cancel, he]

theorem mergeEntry_of_length_le {log : List (LogEntry C)} {entry : LogEntry C} {p : ℕ}
    (hindex : entry.index = p + 1) (hp : log.length ≤ p) :
    RaftNode.mergeEntry log entry = log ++ [entry] := by
  unfold RaftNode.mergeEntry
  rw [hindex, if_neg (by omega)]

theorem foldl_mergeEntry [DecidableEq C] {source log entries : List (LogEntry C)} {prev : ℕ}
    (hsource : Indexed source) (hslice : source.take prev ++ entries <+: source)
    (hprev : prev ≤ source.length) (hlog : log.take prev = source.take prev)
    (hmatch : Matching log source) :
    entries.foldl RaftNode.mergeEntry log =
      mergeTake source (prev + entries.length) log := by
  induction entries generalizing log prev with
  | nil =>
    have hp : source.take prev <+: log := hlog ▸ List.take_prefix prev log
    simp [mergeTake, hp]
  | cons entry rest ih =>
    have hlen : (source.take prev).length = prev := by rw [List.length_take]; omega
    have hentry : source[prev]? = some entry := by
      refine getElem?_of_isPrefix hslice ?_
      rw [List.getElem?_append_right hlen.le, hlen]
      simp
    have hlt := (List.getElem?_eq_some_iff.mp hentry).1
    have htake : source.take (prev + 1) = source.take prev ++ [entry] := by
      rw [List.take_add_one, hentry]
      rfl
    have hslice' : source.take (prev + 1) ++ rest <+: source := by
      rw [htake, List.append_assoc]
      exact hslice
    have hindex : entry.index = prev + 1 := hsource prev entry hentry
    have hm : prev + (entry :: rest).length = prev + 1 + rest.length := by
      rw [List.length_cons]
      omega
    -- once the log is cut down to the leader's, it stays so
    have hcut : rest.foldl RaftNode.mergeEntry (source.take (prev + 1)) =
        source.take (prev + 1 + rest.length) := by
      rw [ih hslice' hlt (by rw [List.take_take, min_self]), mergeTake_take _ (by omega)]
      intro p e e' he he' _
      have hp := (List.getElem?_eq_some_iff.mp he).1
      rw [List.length_take] at hp
      rw [List.take_take, min_eq_left (by omega)]
    rw [List.foldl_cons, hm]
    rcases Nat.lt_or_ge prev log.length with hp | hp
    · obtain ⟨existing, hex⟩ : ∃ existing, log[prev]? = some existing :=
        ⟨_, List.getElem?_eq_getElem hp⟩
      rw [mergeEntry_of_getElem? hindex hex]
      split
      · rename_i hterm
        rw [hlog, ← htake, hcut]
        symm
        unfold mergeTake
        refine if_neg fun hpre => hterm ?_
        have := getElem?_of_isPrefix hpre
          (show (source.take (prev + 1 + rest.length))[prev]? = some entry by
            rw [List.getElem?_take_of_lt (by omega), hentry])
        rw [hex] at this
        rw [Option.some.inj this]
      · rename_i hterm
        exact ih hslice' hlt (hmatch prev existing entry hex hentry (not_not.mp hterm)) hmatch
    · have hlp : log.length = prev := by
        have := congrArg List.length hlog
        rw [hlen, List.length_take] at this
        omega
      have hlog' : log = source.take prev := by
        rw [← hlog, List.take_of_length_le hp]
      rw [mergeEntry_of_length_le hindex hp, hlog', ← htake, hcut, mergeTake_take _ (by omega)]

end Pynchronize
