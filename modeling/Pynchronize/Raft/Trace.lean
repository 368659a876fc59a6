import Pynchronize.Raft.Roles

/-!
# Where entries and calls come from

In every run, crashes of any kind included, the entries in logs and pending
AppendEntries are copies of the entries that `propose` created, each at its own
index, and `command_handler` is called with entries of the log in increasing
order. `carries_step` and `callsInOrder_step` say so of one step.
-/

namespace Pynchronize

open Lib

variable {N C : Type*}

/-! ## One node -/

namespace RaftNode

/-- The state file holds the persistent state. -/
def Saved (n : RaftNode N C) : Prop := n.stateFile.getD {} = n.persistent

/-- What one step does to the calls of `command_handler`. -/
inductive Calls (n n' : RaftNode N C) : Prop
  | idle (hcalls : n'.applied = n.applied)
      (hle : n.volatile.lastApplied ≤ n'.volatile.lastApplied)
  | call {e : LogEntry C} (he : n'.persistent.log[n'.volatile.lastApplied - 1]? = some e)
      (hlt : n.volatile.lastApplied < n'.volatile.lastApplied)
      (hcalls : n'.applied = n.applied ++ [(n'.volatile.lastApplied, e.command)])

theorem Calls.refl (n : RaftNode N C) : Calls n n := .idle rfl le_rfl

/-- The calls so far, at increasing indices up to `last_applied`. -/
structure CallsInOrder (n : RaftNode N C) : Prop where
  increasing : n.applied.Pairwise fun call call' => call.1 < call'.1
  le_lastApplied : ∀ call ∈ n.applied, call.1 ≤ n.volatile.lastApplied

theorem callsInOrder_boot (file : Option (PersistentState N C)) (now : ℚ) :
    CallsInOrder (boot file now) :=
  ⟨List.Pairwise.nil, fun _ hm => by cases hm⟩

theorem Calls.inOrder {n n' : RaftNode N C} (h : Calls n n') (ho : CallsInOrder n) :
    CallsInOrder n' := by
  cases h with
  | idle hcalls hle =>
    refine ⟨hcalls ▸ ho.increasing, fun call hm => ?_⟩
    exact (ho.le_lastApplied call (hcalls ▸ hm)).trans hle
  | call he hlt hcalls =>
    refine ⟨?_, fun call hm => ?_⟩
    · rw [hcalls, List.pairwise_append]
      refine ⟨ho.increasing, List.pairwise_singleton _ _, fun call hm call' hm' => ?_⟩
      rw [List.mem_singleton.mp hm']
      exact (ho.le_lastApplied call hm).trans_lt hlt
    · rw [hcalls] at hm
      rcases List.mem_append.mp hm with hold | hnew
      · exact (ho.le_lastApplied call hold).trans hlt.le
      · rw [List.mem_singleton.mp hnew]

/-- `n'` has the log and the calls of `n`, and is saved if `n` is. -/
structure KeepsLog (n n' : RaftNode N C) : Prop where
  log : n'.persistent.log = n.persistent.log
  saved : n.Saved → n'.Saved
  calls : n'.applied = n.applied
  lastApplied : n'.volatile.lastApplied = n.volatile.lastApplied

theorem KeepsLog.refl (n : RaftNode N C) : KeepsLog n n := ⟨rfl, id, rfl, rfl⟩

theorem KeepsLog.trans {n n' n'' : RaftNode N C} (h : KeepsLog n n') (h' : KeepsLog n' n'') :
    KeepsLog n n'' :=
  ⟨h'.log.trans h.log, fun hs => h'.saved (h.saved hs), h'.calls.trans h.calls,
    h'.lastApplied.trans h.lastApplied⟩

theorem Calls.of_eq {n m n' : RaftNode N C} (h : Calls m n') (hm : m.applied = n.applied)
    (hl : m.volatile.lastApplied = n.volatile.lastApplied) : Calls n n' := by
  cases h with
  | idle hcalls hle => exact .idle (hcalls.trans hm) (hl ▸ hle)
  | call he hlt hcalls => exact .call he (hl ▸ hlt) (hm ▸ hcalls)

/-- What one step does to a node: entries it did not have come from `new`. -/
structure Traces (new : ℕ → LogEntry C → Prop) (n n' : RaftNode N C) : Prop where
  saved : n.Saved → n'.Saved
  log : ∀ p e, n'.persistent.log[p]? = some e → n.persistent.log[p]? = some e ∨ new p e
  calls : Calls n n'

theorem KeepsLog.traces {n n' : RaftNode N C} (h : KeepsLog n n')
    (new : ℕ → LogEntry C → Prop) : Traces new n n' where
  saved := h.saved
  log _ _ he := Or.inl (h.log ▸ he)
  calls := .idle h.calls h.lastApplied.ge

theorem Traces.mono {new new' : ℕ → LogEntry C → Prop} {n n' : RaftNode N C}
    (h : Traces new n n') (hnew : ∀ p e, new p e → new' p e) : Traces new' n n' where
  saved := h.saved
  log p e he := (h.log p e he).imp_right (hnew p e)
  calls := h.calls

/-- First the log changes, then entries are applied. -/
theorem Traces.after {new : ℕ → LogEntry C → Prop} {n m n' : RaftNode N C} (h : Traces new n m)
    (hcalls : m.applied = n.applied) (hlast : m.volatile.lastApplied = n.volatile.lastApplied)
    (h' : Traces new m n') : Traces new n n' where
  saved hs := h'.saved (h.saved hs)
  log p e he := (h'.log p e he).elim (h.log p e) Or.inr
  calls := h'.calls.of_eq hcalls hlast

theorem Traces.of_keepsLog {new : ℕ → LogEntry C → Prop} {n m n' : RaftNode N C}
    (h' : Traces new m n') (hk : KeepsLog n m) : Traces new n n' :=
  (hk.traces new).after hk.calls hk.lastApplied h'

theorem calls_applyLoop (k : ℕ) (n : RaftNode N C) : Calls n (applyLoop k n).1 := by
  induction k generalizing n with
  | zero => exact Calls.refl n
  | succ k ih =>
    unfold applyLoop
    dsimp only
    split
    · rename_i e he
      exact .call (getLogEntry_eq_some he).2 (Nat.lt_succ_self _) rfl
    · let next := { n with
        volatile := { n.volatile with lastApplied := n.volatile.lastApplied + 1 } }
      cases ih next with
      | idle hcalls hle => exact .idle hcalls (Nat.le_of_succ_le hle)
      | call he hlt hcalls => exact .call he (Nat.lt_of_succ_lt hlt) hcalls

theorem traces_applyCommitted (new : ℕ → LogEntry C → Prop) (n : RaftNode N C) :
    Traces new n n.applyCommitted.1 := by
  obtain ⟨a, calls, heq, -⟩ := n.applyCommitted_eq
  exact
    { saved := fun hs => by rw [heq]; exact hs
      log := fun p e he => by rw [heq] at he; exact Or.inl he
      calls := calls_applyLoop _ n }

theorem keepsLog_withCommitIndex (n : RaftNode N C) (c : ℕ) :
    KeepsLog n (n.withVolatile { n.volatile with commitIndex := c } n.applied) :=
  ⟨rfl, id, rfl, rfl⟩

theorem traces_tryCommit (cfg : Config N) (new : ℕ → LogEntry C → Prop) (n : RaftNode N C) :
    Traces new n (n.tryCommit cfg).1 := by
  rcases n.tryCommit_eq cfg with heq | ⟨ls, c, -, -, heq⟩
  · rw [heq]
    exact (KeepsLog.refl n).traces new
  · rw [heq]
    exact (traces_applyCommitted new _).of_keepsLog (keepsLog_withCommitIndex n c)

theorem traces_followCommit (new : ℕ → LogEntry C → Prop) (n : RaftNode N C) (leaderCommit : ℕ) :
    Traces new n (n.followCommit leaderCommit).1 := by
  rcases n.followCommit_eq leaderCommit with heq | ⟨-, heq⟩
  · rw [heq]
    exact (KeepsLog.refl n).traces new
  · rw [heq]
    exact (traces_applyCommitted new _).of_keepsLog (keepsLog_withCommitIndex n _)

theorem keepsLog_stepDown (n : RaftNode N C) (newTerm : ℕ) : KeepsLog n (n.stepDown newTerm) :=
  ⟨rfl, fun _ => rfl, rfl, rfl⟩

theorem keepsLog_withElectionTask (n : RaftNode N C) (e : ElectionTask N) :
    KeepsLog n { n with electionTask := e } :=
  ⟨rfl, id, rfl, rfl⟩

theorem keepsLog_becomeLeader [DecidableEq N] (cfg : Config N) (nodeId : N) (n : RaftNode N C) :
    KeepsLog n (n.becomeLeader cfg nodeId) :=
  ⟨rfl, id, rfl, rfl⟩

theorem keepsLog_startElection (nodeId : N) [DecidableEq N] (n : RaftNode N C) :
    KeepsLog n (n.startElection nodeId) :=
  ⟨rfl, fun _ => rfl, rfl, rfl⟩

theorem keepsLog_foldl_collectVote [DecidableEq N] (n : RaftNode N C)
    (responses : List (N × Option (Message N Response))) :
    KeepsLog n (responses.foldl collectVote n) := by
  obtain ⟨votes, heq, -⟩ := n.foldl_collectVote_eq responses
  rw [heq]
  exact ⟨rfl, id, rfl, rfl⟩

theorem keepsLog_handleResponse [DecidableEq N] {n n' : RaftNode N C} {o : Outgoing N C}
    {response : Option (Message N Response)} {suspended : Bool}
    (h : n.handleResponse o response = some (n', suspended)) : KeepsLog n n' := by
  cases responds h with
  | passes => exact KeepsLog.refl n
  | books => exact ⟨rfl, id, rfl, rfl⟩
  | backsOff => exact ⟨rfl, id, rfl, rfl⟩
  | stepsDown => exact keepsLog_stepDown n _

theorem keepsLog_handleRequestVote [DecidableEq N] (nodeId : N) (now : ℚ) (n : RaftNode N C)
    (term : ℕ) (candidateId : N) (lastLogIndex lastLogTerm : ℕ) :
    KeepsLog n
      (n.handleRequestVote nodeId now term candidateId lastLogIndex lastLogTerm).1 := by
  unfold handleRequestVote
  dsimp only
  split
  · exact ⟨rfl, fun _ => rfl, rfl, rfl⟩
  · exact KeepsLog.refl n

/-- The entries of a message, at the places their indices give them. -/
def EntryAt (prev : ℕ) (entries : List (LogEntry C)) (p : ℕ) (e : LogEntry C) : Prop :=
  prev ≤ p ∧ entries[p - prev]? = some e

theorem entryAt_cons {prev : ℕ} {entry : LogEntry C} {rest : List (LogEntry C)} {p : ℕ}
    {e : LogEntry C} (h : EntryAt (prev + 1) rest p e) : EntryAt prev (entry :: rest) p e := by
  obtain ⟨hp, he⟩ := h
  refine ⟨by omega, ?_⟩
  rw [show p - prev = (p - (prev + 1)) + 1 by omega, List.getElem?_cons_succ]
  exact he

/-- Merging puts every entry at its own index. -/
theorem getElem?_foldl_mergeEntry {entries log : List (LogEntry C)} {prev : ℕ}
    (hprev : prev ≤ log.length) (hindex : ∀ p e, EntryAt prev entries p e → e.index = p + 1)
    {p : ℕ} {e : LogEntry C} (he : (entries.foldl mergeEntry log)[p]? = some e) :
    log[p]? = some e ∨ EntryAt prev entries p e := by
  induction entries generalizing log prev with
  | nil => exact Or.inl he
  | cons entry rest ih =>
    have hself : EntryAt prev (entry :: rest) prev entry := ⟨le_rfl, by simp⟩
    have hentry := hindex prev entry hself
    -- one entry merged: it stands at `prev`, what it leaves was there before
    have hone : prev + 1 ≤ (mergeEntry log entry).length ∧
        ∀ q x, (mergeEntry log entry)[q]? = some x →
          log[q]? = some x ∨ EntryAt prev (entry :: rest) q x := by
      have hput : ∀ q x, (log.take prev ++ [entry])[q]? = some x →
          log[q]? = some x ∨ EntryAt prev (entry :: rest) q x := by
        intro q x hx
        have hlen : (log.take prev).length = prev := by rw [List.length_take]; omega
        rcases Nat.lt_trichotomy q prev with hlt | rfl | hgt
        · rw [List.getElem?_append_left (by omega), List.getElem?_take_of_lt hlt] at hx
          exact Or.inl hx
        · rw [List.getElem?_append_right (by omega), hlen, Nat.sub_self] at hx
          obtain rfl := Option.some.inj hx
          exact Or.inr hself
        · rw [List.getElem?_eq_none (by simp; omega)] at hx
          cases hx
      rcases Nat.lt_or_ge prev log.length with hlt | hge
      · obtain ⟨existing, hex⟩ : ∃ existing, log[prev]? = some existing :=
          ⟨_, List.getElem?_eq_getElem hlt⟩
        rw [mergeEntry_of_getElem? hentry hex]
        split
        · exact ⟨by simp; omega, hput⟩
        · exact ⟨hlt, fun q x hx => Or.inl hx⟩
      · have htake : log.take prev = log := List.take_of_length_le hge
        rw [mergeEntry_of_length_le hentry hge]
        rw [htake] at hput
        exact ⟨by simp; omega, hput⟩
    rcases ih hone.1 (fun q x hx => hindex q x (entryAt_cons hx)) he with hlog | hrest
    · exact hone.2 p e hlog
    · exact Or.inr (entryAt_cons hrest)

theorem length_of_matchesPrev {n : RaftNode N C} {prev prevTerm : ℕ}
    (h : n.matchesPrev prev prevTerm = true) : prev ≤ n.persistent.log.length := by
  unfold matchesPrev at h
  split at h
  · split at h
    · rename_i e he
      have := (List.getElem?_eq_some_iff.mp (getLogEntry_eq_some he).2).1
      omega
    · cases h
  · omega

theorem calls_mergeEntries (n : RaftNode N C) (entries : List (LogEntry C)) :
    (n.mergeEntries entries).applied = n.applied ∧
      (n.mergeEntries entries).volatile = n.volatile := by
  obtain ⟨file, heq⟩ := n.mergeEntries_eq entries
  rw [heq]
  exact ⟨rfl, rfl⟩

theorem saved_mergeEntries {n : RaftNode N C} (hs : n.Saved) (entries : List (LogEntry C)) :
    (n.mergeEntries entries).Saved := by
  unfold mergeEntries
  dsimp only
  split
  · rename_i hnil
    rw [List.isEmpty_iff.mp hnil]
    exact hs
  · rfl

theorem traces_mergeEntries {new : ℕ → LogEntry C → Prop} {n : RaftNode N C}
    {entries : List (LogEntry C)}
    (hlog : ∀ p e, (entries.foldl mergeEntry n.persistent.log)[p]? = some e →
      n.persistent.log[p]? = some e ∨ new p e) :
    Traces new n (n.mergeEntries entries) where
  saved hs := saved_mergeEntries hs entries
  log p e he := hlog p e (by rwa [← log_mergeEntries])
  calls := .idle (calls_mergeEntries n entries).1
    (congrArg VolatileState.lastApplied (calls_mergeEntries n entries).2).ge

theorem traces_handleAppendEntries {new : ℕ → LogEntry C → Prop} {nodeId : N} {now : ℚ}
    {n : RaftNode N C} {term : ℕ} {leaderId : N} {prev prevTerm : ℕ} {entries : List (LogEntry C)}
    {leaderCommit : ℕ}
    (hlog : prev ≤ n.persistent.log.length →
      ∀ p e, (entries.foldl mergeEntry n.persistent.log)[p]? = some e →
        n.persistent.log[p]? = some e ∨ new p e) :
    Traces new n (n.handleAppendEntries nodeId now term leaderId prev prevTerm entries
      leaderCommit).1 := by
  have hheard : KeepsLog n (n.heard now leaderId) := ⟨rfl, id, rfl, rfl⟩
  rcases Nat.lt_or_ge term n.persistent.currentTerm with hlt | hge
  · rw [handleAppendEntries_of_lt nodeId now n leaderId entries leaderCommit hlt]
    exact (⟨rfl, id, rfl, rfl⟩ : KeepsLog n { n with lastHeartbeat := now }).traces _
  · rw [handleAppendEntries_of_le nodeId now n leaderId entries leaderCommit hge]
    split
    · rename_i hmatch
      obtain ⟨hcalls, hvol⟩ := calls_mergeEntries (n.heard now leaderId) entries
      have hmerge : Traces new (n.heard now leaderId)
          ((n.heard now leaderId).mergeEntries entries) :=
        traces_mergeEntries (hlog (length_of_matchesPrev hmatch))
      refine Traces.of_keepsLog ?_ hheard
      exact hmerge.after hcalls (congrArg VolatileState.lastApplied hvol)
        (traces_followCommit _ _ leaderCommit)
    · exact hheard.traces _

/-- `propose` puts its entry at the end of the log. -/
theorem traces_appendCommand (n : RaftNode N C) (command : C) :
    Traces (fun p e => p = n.persistent.log.length ∧ e = n.newEntry command) n
      (n.appendCommand command) where
  saved _ := rfl
  log p e he := by
    have he : (n.persistent.log ++ [n.newEntry command])[p]? = some e := he
    rcases Nat.lt_or_ge p n.persistent.log.length with hlt | hge
    · rw [List.getElem?_append_left hlt] at he
      exact Or.inl he
    · have hlen := (List.getElem?_eq_some_iff.mp he).1
      have hp : p = n.persistent.log.length := by simp at hlen; omega
      subst hp
      exact Or.inr ⟨rfl, by simpa using he.symm⟩
  calls := .idle rfl le_rfl

end RaftNode

/-! ## The cluster -/

open RaftNode (Saved Traces KeepsLog EntryAt)

/-- An AppendEntries that its handler has not looked at yet holds the entry. -/
def Rpc.Carries (r : Rpc N C) (p : ℕ) (e : LogEntry C) : Prop :=
  (r.stage = .inFlight ∨ r.stage = .steppingDown) ∧
    match r.message.payload with
    | .appendEntries _ prev _ entries _ => EntryAt prev entries p e
    | .requestVote .. => False

namespace Cluster

/-- The entry stands at `p` in a log, or is under way to there. -/
def Carries (s : Cluster N C) (p : ℕ) (e : LogEntry C) : Prop :=
  (∃ i, (s.nodes i).persistent.log[p]? = some e) ∨ ∃ r ∈ s.rpcs, r.Carries p e

/-- Every entry carries the index of its place. -/
def InPlace (s : Cluster N C) : Prop := ∀ p e, s.Carries p e → e.index = p + 1

/-- What one step does to the nodes and to the entries under way. -/
structure Traced (new : ℕ → LogEntry C → Prop) (s s' : Cluster N C) : Prop where
  nodes : ∀ j, Traces new (s.nodes j) (s'.nodes j)
  rpcs : ∀ r ∈ s'.rpcs, ∀ p e, r.Carries p e → (∃ r₀ ∈ s.rpcs, r₀.Carries p e) ∨
    ∃ j, (s'.nodes j).persistent.log[p]? = some e

variable [DecidableEq N] {cfg : Config N} {s s' : Cluster N C} {new : ℕ → LogEntry C → Prop}

theorem traces_setNode {i : N} {n : RaftNode N C} (h : Traces new (s.nodes i) n) (j : N) :
    Traces new (s.nodes j) ((s.setNode i n).nodes j) := by
  rcases eq_or_ne j i with rfl | hne
  · rwa [nodes_setNode_self]
  · rw [nodes_setNode_of_ne s hne]
    exact (KeepsLog.refl (s.nodes j)).traces new

/-- A node that changed before the rest of the step. -/
theorem Traced.of_setNode {i : N} {n : RaftNode N C} (h : Traces new (s.nodes i) n)
    (hcalls : n.applied = (s.nodes i).applied)
    (hlast : n.volatile.lastApplied = (s.nodes i).volatile.lastApplied)
    (h' : Traced new (s.setNode i n) s') : Traced new s s' where
  nodes j := by
    have hj := h'.nodes j
    rcases eq_or_ne j i with rfl | hne
    · rw [nodes_setNode_self] at hj
      exact h.after hcalls hlast hj
    · rwa [nodes_setNode_of_ne s hne] at hj
  rpcs := h'.rpcs

omit [DecidableEq N] in
theorem traced_setPc (s : Cluster N C) (k : ℕ) (t : Task N C) (pc : Pc N C) :
    Traced new s (s.setPc k t pc) where
  nodes j := (KeepsLog.refl (s.nodes j)).traces new
  rpcs r hr _ _ he := Or.inl ⟨r, hr, he⟩

theorem traced_node {i : N} {n : RaftNode N C} (h : Traces new (s.nodes i) n)
    (tasks : List (Task N C)) : Traced new s { s.setNode i n with tasks := tasks } where
  nodes := traces_setNode h
  rpcs r hr _ _ he := Or.inl ⟨r, hr, he⟩

/-- A request that goes out copies the log of its sender. -/
theorem entry_of_outgoing {n : RaftNode N C} {ls : LeaderState N} {nodeId : N} {p : ℕ}
    {e : LogEntry C}
    (h : EntryAt (n.outgoing ls nodeId).prevLogIndex (n.outgoing ls nodeId).entries p e) :
    n.persistent.log[p]? = some e := by
  obtain ⟨hp, he⟩ := h
  unfold RaftNode.outgoing at hp he
  dsimp only at hp he
  split at he
  · rw [List.getElem?_drop] at he
    rwa [Nat.add_sub_cancel' hp] at he
  · simp at he

theorem traced_sendNext (s : Cluster N C) (k : ℕ) (t : Task N C) (rest : List N) :
    Traced new s (s.sendNext cfg k t rest) := by
  cases rest with
  | nil => exact traced_node (RaftNode.traces_tryCommit cfg new _) _
  | cons nodeId rest =>
    unfold sendNext
    cases hls : (s.nodes t.node).leaderState with
    | none => exact traced_setPc s k t .raised
    | some ls =>
      refine ⟨fun j => (KeepsLog.refl (s.nodes j)).traces new, fun r hr p e he => ?_⟩
      rcases List.mem_append.mp hr with hold | hnew
      · exact Or.inl ⟨r, hold, he⟩
      · obtain rfl := List.mem_singleton.mp hnew
        exact Or.inr ⟨t.node, entry_of_outgoing he.2⟩

theorem traced_sendAppendEntries (s : Cluster N C) (k : ℕ) (t : Task N C) :
    Traced new s (s.sendAppendEntries cfg k t) := by
  unfold sendAppendEntries
  split
  · exact traced_setPc s k t _
  · exact traced_sendNext s k t _

theorem traced_sendReturns (s : Cluster N C) (k : ℕ) (t : Task N C) (o : RaftNode.Outgoing N C)
    (rest : List N) (response : Option (Message N Response)) :
    Traced new s (s.sendReturns cfg k t o rest response) := by
  unfold sendReturns
  split
  · exact traced_setPc s k t .raised
  · rename_i n heq
    exact traced_node ((RaftNode.keepsLog_handleResponse heq).traces new) _
  · rename_i n heq
    have hk := RaftNode.keepsLog_handleResponse heq
    exact Traced.of_setNode (hk.traces new) hk.calls hk.lastApplied (traced_sendNext _ k t rest)

/-- A handler goes on: its RPC carries nothing any more, or what it carried before. -/
theorem traced_setStage {i : N} {n : RaftNode N C} (h : Traces new (s.nodes i) n) {j : ℕ}
    {r : Rpc N C} (hr : s.rpcs[j]? = some r) {stage : Stage N}
    (hstage : stage = .inFlight ∨ stage = .steppingDown → r.stage = .inFlight) :
    Traced new s ((s.setNode i n).setStage j r stage) where
  nodes := traces_setNode h
  rpcs r' hr' p e he := by
    rcases List.mem_or_eq_of_mem_set hr' with hm | rfl
    · exact Or.inl ⟨r', hm, he⟩
    · exact Or.inl ⟨r, List.mem_of_getElem? hr, Or.inl (hstage he.1), he.2⟩

theorem traced_handle {j : ℕ} {r : Rpc N C} (hr : s.rpcs[j]? = some r) (now : ℚ)
    (hlog : ∀ leaderId prev prevTerm entries leaderCommit,
      r.message.payload = .appendEntries leaderId prev prevTerm entries leaderCommit →
      prev ≤ (s.nodes r.dst).persistent.log.length →
        ∀ p e, (entries.foldl RaftNode.mergeEntry (s.nodes r.dst).persistent.log)[p]? = some e →
          (s.nodes r.dst).persistent.log[p]? = some e ∨ new p e) :
    Traced new s (s.handle j r now) := by
  unfold handle
  split
  · exact traced_setStage ((RaftNode.keepsLog_handleRequestVote _ _ _ _ _ _ _).traces _) hr
      (by rintro (h | h) <;> cases h)
  · rename_i leaderId prev prevTerm entries leaderCommit hpay
    refine traced_setStage (RaftNode.traces_handleAppendEntries (hlog _ _ _ _ _ hpay)) hr ?_
    split
    · rintro (h | h) <;> cases h
    · rintro (h | h) <;> cases h

/-- What a request that is not handled yet can put into a log is what it carries. -/
theorem traced_handle_carries {j : ℕ} {r : Rpc N C} (hr : s.rpcs[j]? = some r) (now : ℚ)
    (hst : r.stage = .inFlight ∨ r.stage = .steppingDown)
    (hplace : ∀ p e, r.Carries p e → e.index = p + 1) :
    Traced r.Carries s (s.handle j r now) := by
  refine traced_handle hr now ?_
  intro leaderId prev prevTerm entries leaderCommit hpay hprev p e he
  have hcarries : r.Carries = EntryAt prev entries := by
    funext p e
    simp [Rpc.Carries, hpay, hst]
  rw [hcarries] at hplace ⊢
  exact RaftNode.getElem?_foldl_mergeEntry hprev hplace he

omit [DecidableEq N] in
theorem Traced.mono {new' : ℕ → LogEntry C → Prop} (h : Traced new s s')
    (hnew : ∀ p e, new p e → new' p e) : Traced new' s s' :=
  ⟨fun j => (h.nodes j).mono hnew, h.rpcs⟩

/-- The entries that a step can put into a log. -/
def Enters (s : Cluster N C) (a : Action N C) (p : ℕ) (e : LogEntry C) : Prop :=
  (∃ r ∈ s.rpcs, r.Carries p e) ∨ ∃ i command, a = .propose i command ∧
    p = (s.nodes i).persistent.log.length ∧ e = (s.nodes i).newEntry command

/-- What a step does, if handlers do only that. -/
theorem traced_of_handled {a : Action N C} (hcrash : a.crashFree = true)
    (h : s.step cfg a = some s')
    (hpropose : ∀ i command, a = .propose i command →
      new (s.nodes i).persistent.log.length ((s.nodes i).newEntry command))
    (handled : ∀ {j : ℕ} {r : Rpc N C} (now : ℚ), s.rpcs[j]? = some r →
      r.stage = .inFlight ∨ r.stage = .steppingDown → Traced new s (s.handle j r now)) :
    Traced new s s' := by
  cases stepped h with
  | @electionTimeout i =>
    have hk := RaftNode.keepsLog_startElection i (s.nodes i)
    refine Traced.of_setNode (hk.traces _) hk.calls hk.lastApplied ⟨?_, fun r hr p e he => ?_⟩
    · exact traces_setNode ((RaftNode.keepsLog_withElectionTask _ _).traces _)
    · rcases List.mem_append.mp hr with hold | hnew
      · exact Or.inl ⟨r, hold, he⟩
      · obtain ⟨d, -, rfl⟩ := List.mem_map.mp hnew
        exact he.2.elim
  | @electionEnds i received sends =>
    have hk := RaftNode.keepsLog_foldl_collectVote (s.nodes i) (s.responses sends received)
    unfold countVotes
    split
    · have hwin := hk.trans (RaftNode.keepsLog_becomeLeader cfg i _)
      exact traced_node ((hwin.trans (RaftNode.keepsLog_withElectionTask _ _)).traces _) s.tasks
    · exact traced_node ((hk.trans (RaftNode.keepsLog_withElectionTask _ _)).traces _) s.tasks
  | @becameLeader i =>
    exact traced_node ((⟨rfl, id, rfl, rfl⟩ : KeepsLog (s.nodes i) { s.nodes i with
      electionTask := .sleeping, heartbeatTask := some s.tasks.length }).traces _) _
  | @propose i command =>
    refine Traced.of_setNode (n := (s.nodes i).appendCommand command)
      ((RaftNode.traces_appendCommand _ command).mono ?_) rfl rfl ?_
    · rintro p e ⟨rfl, rfl⟩
      exact hpropose i command rfl
    · let m := (s.setNode i ((s.nodes i).appendCommand command)).spawn ⟨i, .propose, .looping⟩
      have hsend : Traced new m
          (m.sendAppendEntries cfg s.tasks.length ⟨i, .propose, .looping⟩) :=
        traced_sendAppendEntries _ _ _
      exact ⟨hsend.nodes, hsend.rpcs⟩
  | heartbeat => exact traced_sendAppendEntries s _ _
  | heartbeatEnds => exact traced_setPc s _ _ _
  | reply => exact traced_sendReturns s _ _ _ _ _
  | noReply => exact traced_sendReturns s _ _ _ _ _
  | resumeSending => exact traced_sendNext s _ _ _
  | resumeApplying => exact traced_node (RaftNode.traces_applyCommitted _ _) _
  | raise => exact traced_setPc s _ _ _
  | @deliver j now r hr hst =>
    unfold deliver
    split
    · exact traced_setStage ((RaftNode.keepsLog_stepDown _ _).traces _) hr fun _ => hst
    · exact handled now hr (Or.inl hst)
  | resumeHandling hr hst => exact handled _ hr (Or.inr hst)
  | resumeHandlerApplying hr =>
    refine traced_setStage (RaftNode.traces_applyCommitted _ _) hr ?_
    split
    · rintro (h | h) <;> cases h
    · rintro (h | h) <;> cases h
  | @raiseHandler j r hr =>
    refine ⟨fun j => (KeepsLog.refl (s.nodes j)).traces _, fun r' hr' p e he => ?_⟩
    rcases List.mem_or_eq_of_mem_set hr' with hm | rfl
    · exact Or.inl ⟨r', hm, he⟩
    · rcases he.1 with hs | hs <;> cases hs
  | crash => cases hcrash
  | crashSaving => cases hcrash

theorem traced_step {a : Action N C} (hplace : s.InPlace) (hcrash : a.crashFree = true)
    (h : s.step cfg a = some s') : Traced (s.Enters a) s s' := by
  refine traced_of_handled hcrash h ?_ ?_
  · intro i command ha
    exact Or.inr ⟨i, command, ha, rfl, rfl⟩
  · intro j r now hr hst
    have hmem := List.mem_of_getElem? hr
    refine (traced_handle_carries hr now hst fun p e he => ?_).mono ?_
    · exact hplace p e (Or.inr ⟨r, hmem, he⟩)
    · exact fun p e he => Or.inl ⟨r, hmem, he⟩

/-! ## Restarts -/

theorem carries_dropHandler {i : N} {r : Rpc N C} {p : ℕ} {e : LogEntry C}
    (h : (dropHandler i r).Carries p e) : r.Carries p e := by
  unfold dropHandler at h
  split at h
  · split at h
    · rcases h.1 with hs | hs <;> cases hs
    · exact h
  · split at h
    · rcases h.1 with hs | hs <;> cases hs
    · exact h
  · exact h

/-- A restart brings back what the node had saved, or nothing. -/
theorem carries_restart {i : N} {file : Option (PersistentState N C)} {now : ℚ}
    (hfile : file = none ∨ file = (s.nodes i).stateFile) (hsaved : (s.nodes i).Saved) {p : ℕ}
    {e : LogEntry C} (h : (s.restart i file now).Carries p e) : s.Carries p e := by
  rcases h with ⟨j, he⟩ | ⟨r, hr, he⟩
  · rcases eq_or_ne j i with rfl | hne
    · rw [nodes_restart_self] at he
      rcases hfile with rfl | rfl
      · simp [RaftNode.boot] at he
      · refine Or.inl ⟨j, ?_⟩
        have hlog : ((s.nodes j).stateFile.getD {}).log[p]? = some e := he
        rwa [hsaved] at hlog
    · rw [nodes_restart_of_ne s hne] at he
      exact Or.inl ⟨j, he⟩
  · obtain ⟨r₀, hr₀, rfl⟩ := List.mem_map.mp hr
    exact Or.inr ⟨r₀, hr₀, carries_dropHandler he⟩

/-! ## All steps -/

/-- Every entry in sight was there before, or is the one that `propose` creates. -/
theorem carries_step {a : Action N C} (hplace : s.InPlace) (hsaved : ∀ j, (s.nodes j).Saved)
    (h : s.step cfg a = some s') {p : ℕ} {e : LogEntry C} (he : s'.Carries p e) :
    s.Carries p e ∨ ∃ i command, a = .propose i command ∧
      p = (s.nodes i).persistent.log.length ∧ e = (s.nodes i).newEntry command := by
  by_cases hcrash : a.crashFree = true
  · have htrace := traced_step hplace hcrash h
    have hlog : ∀ j, (s'.nodes j).persistent.log[p]? = some e → s.Carries p e ∨
        ∃ i command, a = .propose i command ∧ p = (s.nodes i).persistent.log.length ∧
          e = (s.nodes i).newEntry command := by
      intro j hj
      rcases (htrace.nodes j).log p e hj with hold | hrpc | hnew
      · exact Or.inl (Or.inl ⟨j, hold⟩)
      · exact Or.inl (Or.inr hrpc)
      · exact Or.inr hnew
    rcases he with ⟨j, hj⟩ | ⟨r, hr, hc⟩
    · exact hlog j hj
    · rcases htrace.rpcs r hr p e hc with hold | ⟨j, hj⟩
      · exact Or.inl (Or.inr hold)
      · exact hlog j hj
  · cases stepped h with
    | crash => exact Or.inl (carries_restart (Or.inr rfl) (hsaved _) he)
    | crashSaving => exact Or.inl (carries_restart (Or.inl rfl) (hsaved _) he)
    | _ => exact absurd rfl hcrash

theorem InPlace.step {a : Action N C} (hplace : s.InPlace) (hsaved : ∀ j, (s.nodes j).Saved)
    (h : s.step cfg a = some s') : s'.InPlace := by
  intro p e he
  rcases carries_step hplace hsaved h he with hold | ⟨i, command, -, rfl, rfl⟩
  · exact hplace p e hold
  · rfl

/-- Whatever a step does to the persistent state of a node, it saves. -/
theorem saved_step {a : Action N C} (hsaved : ∀ j, (s.nodes j).Saved)
    (h : s.step cfg a = some s') (j : N) : (s'.nodes j).Saved := by
  have hrestart : ∀ i (file : Option (PersistentState N C)) now,
      ((s.restart i file now).nodes j).Saved := by
    intro i file now
    rcases eq_or_ne j i with rfl | hne
    · rw [nodes_restart_self]
      rfl
    · rw [nodes_restart_of_ne s hne]
      exact hsaved j
  by_cases hcrash : a.crashFree = true
  · -- where the entries of a request come from does not matter here
    have htraced : Traced (fun _ _ => True) s s' :=
      traced_of_handled hcrash h (fun _ _ _ => trivial) fun now hr _ =>
        traced_handle hr now fun _ _ _ _ _ _ _ _ _ _ => Or.inr trivial
    exact (htraced.nodes j).saved (hsaved j)
  · cases stepped h with
    | crash => exact hrestart ..
    | crashSaving => exact hrestart ..
    | _ => exact absurd rfl hcrash

theorem callsInOrder_step {a : Action N C} (hplace : s.InPlace)
    (horder : ∀ j, (s.nodes j).CallsInOrder) (h : s.step cfg a = some s') (j : N) :
    (s'.nodes j).CallsInOrder := by
  have hrestart : ∀ i (file : Option (PersistentState N C)) now,
      ((s.restart i file now).nodes j).CallsInOrder := by
    intro i file now
    rcases eq_or_ne j i with rfl | hne
    · rw [nodes_restart_self]
      exact RaftNode.callsInOrder_boot file now
    · rw [nodes_restart_of_ne s hne]
      exact horder j
  by_cases hcrash : a.crashFree = true
  · exact ((traced_step hplace hcrash h).nodes j).calls.inOrder (horder j)
  · cases stepped h with
    | crash => exact hrestart ..
    | crashSaving => exact hrestart ..
    | _ => exact absurd rfl hcrash

end Cluster

end Pynchronize
