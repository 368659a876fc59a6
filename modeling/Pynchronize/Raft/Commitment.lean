import Pynchronize.Raft.Terms

/-!
# The committed part of a log

As long as no AppendEntries overwrites what its receiver has committed, the
commit index of a node grows, its committed entries stand, and it has applied
them in order (`advances_step`). `proposeStep_step` follows the coroutine of a
`propose` to the `_try_commit` at its end.
-/

namespace Pynchronize

open Lib

variable {N C : Type*}

/-! ## One node -/

namespace RaftNode

/-- The committed entries stand in the log, and those up to `last_applied` are what has been
    applied. -/
structure CommitOk (n : RaftNode N C) : Prop where
  commit_le : n.volatile.commitIndex ≤ n.persistent.log.length
  applied_le : n.volatile.lastApplied ≤ n.volatile.commitIndex
  calls : ∀ p e, p < n.volatile.lastApplied → n.persistent.log[p]? = some e →
    (p + 1, e.command) ∈ n.applied
  places : ∀ x ∈ n.applied, ∃ p e, x = (p + 1, e.command) ∧ p < n.volatile.lastApplied ∧
    n.persistent.log[p]? = some e

/-- What `n` has committed and applied is committed and applied in `n'`. -/
structure Advances (n n' : RaftNode N C) : Prop where
  commit : n.volatile.commitIndex ≤ n'.volatile.commitIndex
  log : ∀ p, p < n.volatile.commitIndex → n'.persistent.log[p]? = n.persistent.log[p]?
  applied : ∀ x ∈ n.applied, x ∈ n'.applied
  lastApplied : n.volatile.lastApplied ≤ n'.volatile.lastApplied
  ok : CommitOk n'

theorem commitOk_boot (file : Option (PersistentState N C)) (now : ℚ) :
    CommitOk (boot file now) where
  commit_le := Nat.zero_le _
  applied_le := Nat.zero_le _
  calls p _ hp := absurd hp (Nat.not_lt_zero p)
  places x hx := by cases hx

theorem Advances.refl {n : RaftNode N C} (h : CommitOk n) : Advances n n :=
  ⟨le_rfl, fun _ _ => rfl, fun _ hx => hx, le_rfl, h⟩

theorem Advances.trans {n n' n'' : RaftNode N C} (h : Advances n n') (h' : Advances n' n'') :
    Advances n n'' where
  commit := h.commit.trans h'.commit
  log p hp := (h'.log p (hp.trans_le h.commit)).trans (h.log p hp)
  applied x hx := h'.applied x (h.applied x hx)
  lastApplied := h.lastApplied.trans h'.lastApplied
  ok := h'.ok

theorem CommitOk.of_eq {n n' : RaftNode N C} (h : CommitOk n) (hv : n'.volatile = n.volatile)
    (hl : n'.persistent.log = n.persistent.log) (ha : n'.applied = n.applied) : Advances n n' where
  commit := by rw [hv]
  log _ _ := by rw [hl]
  applied _ hx := by rwa [ha]
  lastApplied := by rw [hv]
  ok :=
    { commit_le := by rw [hv, hl]; exact h.commit_le
      applied_le := by rw [hv]; exact h.applied_le
      calls := by rw [hv, hl, ha]; exact h.calls
      places := by rw [hv, hl, ha]; exact h.places }

theorem CommitOk.applyCommitted {n : RaftNode N C} (h : CommitOk n) :
    Advances n n.applyCommitted.1 := by
  obtain ⟨a, calls, heq, happlies⟩ := n.applyCommitted_eq
  rw [heq]
  cases happlies h.commit_le with
  | idle => exact h.of_eq rfl rfl rfl
  | @call e hlt he =>
    refine ⟨le_rfl, fun _ _ => rfl, fun x hx => List.mem_append_left _ hx, Nat.le_succ _,
      h.commit_le, hlt, fun p e' hp he' => ?_, fun x hx => ?_⟩
    · rcases Nat.lt_succ_iff_lt_or_eq.mp hp with hold | rfl
      · exact List.mem_append_left _ (h.calls p e' hold he')
      · obtain rfl := Option.some.inj (he.symm.trans he')
        exact List.mem_append_right _ (List.mem_singleton.mpr rfl)
    · rcases List.mem_append.mp hx with hold | hnew
      · obtain ⟨p, e', rfl, hlast, he'⟩ := h.places x hold
        exact ⟨p, e', rfl, Nat.lt_succ_of_lt hlast, he'⟩
      · obtain rfl := List.mem_singleton.mp hnew
        exact ⟨_, e, rfl, Nat.lt_succ_self _, he⟩

theorem CommitOk.withCommitIndex {n : RaftNode N C} (h : CommitOk n) {c : ℕ}
    (hc : n.volatile.commitIndex ≤ c) (hlen : c ≤ n.persistent.log.length) :
    Advances n (n.withVolatile { n.volatile with commitIndex := c } n.applied) where
  commit := hc
  log _ _ := rfl
  applied _ hx := hx
  lastApplied := le_rfl
  ok :=
    { commit_le := hlen
      applied_le := h.applied_le.trans hc
      calls := h.calls
      places := h.places }

/-- The log changes beyond what is committed. -/
theorem CommitOk.withLog {n n' : RaftNode N C} (h : CommitOk n) (hv : n'.volatile = n.volatile)
    (ha : n'.applied = n.applied)
    (hl : n'.persistent.log.take n.volatile.commitIndex =
      n.persistent.log.take n.volatile.commitIndex) : Advances n n' := by
  have hlog : ∀ p, p < n.volatile.commitIndex →
      n'.persistent.log[p]? = n.persistent.log[p]? := by
    intro p hp
    rw [← List.getElem?_take_of_lt hp, hl, List.getElem?_take_of_lt hp]
  refine ⟨by rw [hv], hlog, fun x hx => by rwa [ha], by rw [hv], ?_, ?_, fun p e hp he => ?_,
    fun x hx => ?_⟩
  · have hlen := congrArg List.length hl
    rw [List.length_take, List.length_take] at hlen
    have := h.commit_le
    rw [hv]
    omega
  · rw [hv]
    exact h.applied_le
  · rw [hv] at hp
    rw [hlog p (hp.trans_le h.applied_le)] at he
    rw [ha]
    exact h.calls p e hp he
  · rw [ha] at hx
    obtain ⟨p, e, rfl, hp, he⟩ := h.places x hx
    refine ⟨p, e, rfl, by rwa [hv], ?_⟩
    rw [hlog p (hp.trans_le h.applied_le), he]

theorem CommitOk.appendCommand {n : RaftNode N C} (h : CommitOk n) (command : C) :
    Advances n (n.appendCommand command) := by
  refine h.withLog rfl rfl ?_
  show (n.persistent.log ++ _).take _ = _
  rw [List.take_append_of_le_length h.commit_le]

/-! ## Committing -/

/-- `_try_commit` leaves the entry at `index` committed: the node leads, and has committed it or
    finds a later one of its term on a majority; or it has applied it. -/
def commits (cfg : Config N) (n : RaftNode N C) (index : ℕ) : Bool :=
  match n.state, n.leaderState with
  | .leader, some ls =>
    index ≤ n.volatile.commitIndex ||
      (List.range' index (n.persistent.log.length + 1 - index)).any fun m =>
        (n.getLogEntry m).any (fun entry => entry.term = n.persistent.currentTerm) &&
          cfg.getMajority ≤ matchCount ls m
  | _, _ => index ≤ n.volatile.lastApplied

theorem foldl_tryCommitAt_ge (cfg : Config N) (ls : LeaderState N) {ks : List ℕ}
    {n : RaftNode N C} (hks : ks.Pairwise (· < ·)) (hgt : ∀ k ∈ ks, n.volatile.commitIndex < k) :
    n.volatile.commitIndex ≤ (ks.foldl (tryCommitAt cfg ls) n).volatile.commitIndex ∧
      ∀ k ∈ ks, Committable cfg ls n k →
        k ≤ (ks.foldl (tryCommitAt cfg ls) n).volatile.commitIndex := by
  induction ks generalizing n with
  | nil => exact ⟨le_rfl, fun k hk => by cases hk⟩
  | cons k ks ih =>
    obtain ⟨hlt, hks⟩ := List.pairwise_cons.mp hks
    rw [List.foldl_cons]
    rcases tryCommitAt_eq cfg ls n k with heq | ⟨-, heq⟩
    · rw [heq]
      obtain ⟨hge, hall⟩ := ih hks fun j hj => hgt j (List.mem_cons_of_mem _ hj)
      refine ⟨hge, fun j hj hcom => ?_⟩
      rcases List.mem_cons.mp hj with rfl | hj
      · obtain ⟨e, he, hterm⟩ := hcom.entry
        have hset : (tryCommitAt cfg ls n j).volatile.commitIndex = j := by
          unfold tryCommitAt
          rw [he]
          dsimp only
          rw [if_neg (not_not.mpr hterm), if_pos hcom.majority]
        rw [heq] at hset
        exact absurd hset (hgt j (List.mem_cons_self ..)).ne
      · exact hall j hj hcom
    · rw [heq]
      have hmore := ih (n := n.withVolatile { n.volatile with commitIndex := k } n.applied) hks hlt
      refine ⟨(hgt k (List.mem_cons_self ..)).le.trans hmore.1, fun j hj hcom => ?_⟩
      rcases List.mem_cons.mp hj with rfl | hj
      · exact hmore.1
      · exact hmore.2 j hj ⟨hcom.entry, hcom.majority⟩

theorem CommitOk.tryCommit {n : RaftNode N C} (h : CommitOk n) (cfg : Config N) :
    Advances n (n.tryCommit cfg).1 := by
  rcases n.tryCommit_eq cfg with heq | ⟨ls, c, -, hc, heq⟩
  · rw [heq]
    exact Advances.refl h
  · rw [heq]
    have hadv : Advances n (n.withVolatile { n.volatile with commitIndex := c } n.applied) := by
      rcases hc with rfl | ⟨hlt, hcom⟩
      · exact h.withCommitIndex le_rfl h.commit_le
      · obtain ⟨e, he, -⟩ := hcom.entry
        have := (List.getElem?_eq_some_iff.mp (getLogEntry_eq_some he).2).1
        exact h.withCommitIndex hlt.le (by omega)
    exact hadv.trans hadv.ok.applyCommitted

theorem applyLoop_false {k : ℕ} {n : RaftNode N C} (h : (applyLoop k n).2 = false) :
    (applyLoop k n).1.volatile.lastApplied = n.volatile.lastApplied + k := by
  induction k generalizing n with
  | zero => rfl
  | succ k ih =>
    unfold applyLoop at h ⊢
    dsimp only at h ⊢
    split at h
    · cases h
    · have hlast := ih h
      dsimp only at hlast
      omega

theorem commitIndex_applyCommitted (n : RaftNode N C) :
    n.applyCommitted.1.volatile.commitIndex = n.volatile.commitIndex := by
  obtain ⟨a, calls, heq, -⟩ := n.applyCommitted_eq
  rw [heq]
  rfl

/-- `_apply_committed` ends when everything committed is applied. -/
theorem applyCommitted_false {n : RaftNode N C} (h : n.applyCommitted.2 = false) :
    n.volatile.commitIndex ≤ n.applyCommitted.1.volatile.lastApplied := by
  have hlast : n.applyCommitted.1.volatile.lastApplied =
      n.volatile.lastApplied + (n.volatile.commitIndex - n.volatile.lastApplied) :=
    applyLoop_false h
  omega

/-- An entry that `_try_commit` finds replicated is committed, and it is applied unless the
    coroutine is suspended in `command_handler`. -/
theorem CommitOk.tryCommit_commits {n : RaftNode N C} (hok : CommitOk n) {cfg : Config N}
    {index : ℕ} (h : n.commits cfg index = true) :
    index ≤ (n.tryCommit cfg).1.volatile.commitIndex ∧
      ((n.tryCommit cfg).2 = false → index ≤ (n.tryCommit cfg).1.volatile.lastApplied) := by
  unfold commits at h
  split at h
  · rename_i ls hs hls
    unfold RaftNode.tryCommit
    rw [hs, hls]
    dsimp only
    have hsorted : (List.range' (n.volatile.commitIndex + 1)
        (n.persistent.log.length - n.volatile.commitIndex)).Pairwise (· < ·) :=
      List.pairwise_lt_range'
    obtain ⟨hge, hall⟩ := foldl_tryCommitAt_ge cfg ls (n := n) hsorted
      fun k hk => (List.mem_range'_1.mp hk).1
    -- the index was committed before the loop, or the loop comes to an entry that carries it
    have hindex : index ≤ ((List.range' (n.volatile.commitIndex + 1)
        (n.persistent.log.length - n.volatile.commitIndex)).foldl
          (tryCommitAt cfg ls) n).volatile.commitIndex := by
      rcases Bool.or_eq_true_iff.mp h with hold | hnew
      · exact (of_decide_eq_true hold).trans hge
      · obtain ⟨m, hm, hcom⟩ := List.any_eq_true.mp hnew
        obtain ⟨hle, hlt⟩ := List.mem_range'_1.mp hm
        obtain ⟨hentry, hmajority⟩ := Bool.and_eq_true_iff.mp hcom
        obtain ⟨e, he, hterm⟩ := (Option.any_eq_true _ _).mp hentry
        rcases Nat.lt_or_ge n.volatile.commitIndex m with hlater | hearlier
        · refine hle.trans (hall m (List.mem_range'_1.mpr ?_)
            ⟨⟨e, he, of_decide_eq_true hterm⟩, of_decide_eq_true hmajority⟩)
          omega
        · exact (hle.trans hearlier).trans hge
    refine ⟨hindex.trans (commitIndex_applyCommitted _).ge, fun hfalse => ?_⟩
    exact hindex.trans (applyCommitted_false hfalse)
  · rename_i hnot
    have h := of_decide_eq_true h
    unfold RaftNode.tryCommit
    split
    · rename_i ls hs hls
      exact (hnot ls hs hls).elim
    · exact ⟨h.trans hok.applied_le, fun _ => h⟩

/-! ## The handlers -/

/-- Nothing that concerns committed entries changes. -/
structure SameProgress (n n' : RaftNode N C) : Prop where
  volatile : n'.volatile = n.volatile
  log : n'.persistent.log = n.persistent.log
  applied : n'.applied = n.applied

theorem CommitOk.same {n n' : RaftNode N C} (h : CommitOk n) (hs : SameProgress n n') :
    Advances n n' :=
  h.of_eq hs.volatile hs.log hs.applied

theorem sameProgress_foldl_collectVote [DecidableEq N] (n : RaftNode N C)
    (responses : List (N × Option (Message N Response))) :
    SameProgress n (responses.foldl collectVote n) := by
  obtain ⟨votes, heq, -⟩ := n.foldl_collectVote_eq responses
  rw [heq]
  exact ⟨rfl, rfl, rfl⟩

theorem sameProgress_handleResponse [DecidableEq N] {n n' : RaftNode N C} {o : Outgoing N C}
    {response : Option (Message N Response)} {suspended : Bool}
    (h : n.handleResponse o response = some (n', suspended)) : SameProgress n n' := by
  cases responds h with
  | passes => exact ⟨rfl, rfl, rfl⟩
  | books => exact ⟨rfl, rfl, rfl⟩
  | backsOff => exact ⟨rfl, rfl, rfl⟩
  | stepsDown => exact ⟨rfl, rfl, rfl⟩

/-- Taking the entries over leaves what the node has committed. -/
def SparesCommitted (n : RaftNode N C) (entries : List (LogEntry C)) : Prop :=
  (entries.foldl mergeEntry n.persistent.log).take n.volatile.commitIndex =
    n.persistent.log.take n.volatile.commitIndex

theorem CommitOk.mergeEntries {n : RaftNode N C} (h : CommitOk n) {entries : List (LogEntry C)}
    (hspares : n.SparesCommitted entries) : Advances n (n.mergeEntries entries) := by
  refine h.withLog (calls_mergeEntries n entries).2 (calls_mergeEntries n entries).1 ?_
  rw [log_mergeEntries]
  exact hspares

theorem CommitOk.followCommit {n : RaftNode N C} (h : CommitOk n)
    (hindexed : Indexed n.persistent.log) (leaderCommit : ℕ) :
    Advances n (n.followCommit leaderCommit).1 := by
  rcases n.followCommit_eq leaderCommit with heq | ⟨hlt, heq⟩
  · rw [heq]
    exact Advances.refl h
  · rw [heq]
    have hlast := getLastLogIndex_eq hindexed
    have hcommit := h.commit_le
    have hadv := h.withCommitIndex (c := min leaderCommit n.getLastLogIndex) (by omega) (by omega)
    exact hadv.trans hadv.ok.applyCommitted

theorem CommitOk.handleAppendEntries {n : RaftNode N C} (h : CommitOk n) {nodeId : N} {now : ℚ}
    {term : ℕ} {leaderId : N} {prev prevTerm : ℕ} {entries : List (LogEntry C)}
    {leaderCommit : ℕ}
    (hspares : n.persistent.currentTerm ≤ term → n.matchesPrev prev prevTerm = true →
      n.SparesCommitted entries)
    (hindexed : n.persistent.currentTerm ≤ term → n.matchesPrev prev prevTerm = true →
      Indexed (entries.foldl mergeEntry n.persistent.log)) :
    Advances n (n.handleAppendEntries nodeId now term leaderId prev prevTerm entries
      leaderCommit).1 := by
  have hheard : SameProgress n (n.heard now leaderId) := ⟨rfl, rfl, rfl⟩
  rcases Nat.lt_or_ge term n.persistent.currentTerm with hlt | hge
  · rw [handleAppendEntries_of_lt nodeId now n leaderId entries leaderCommit hlt]
    exact h.same ⟨rfl, rfl, rfl⟩
  · rw [handleAppendEntries_of_le nodeId now n leaderId entries leaderCommit hge]
    have hsame := h.same hheard
    split
    · rename_i hmatch
      have hmerged : Advances (n.heard now leaderId)
          ((n.heard now leaderId).mergeEntries entries) :=
        hsame.ok.mergeEntries (hspares hge hmatch)
      refine hsame.trans (hmerged.trans (hmerged.ok.followCommit ?_ leaderCommit))
      rw [log_mergeEntries]
      exact hindexed hge hmatch
    · exact hsame

/-- The entry at `index` is committed and holds `command`. -/
structure Committed (n : RaftNode N C) (index : ℕ) (command : C) : Prop where
  le : index ≤ n.volatile.commitIndex
  entry : (n.getLogEntry index).map LogEntry.command = some command

theorem Committed.exists_entry {n : RaftNode N C} {index : ℕ} {command : C}
    (h : n.Committed index command) :
    ∃ p e, index = p + 1 ∧ n.persistent.log[p]? = some e ∧ e.command = command := by
  obtain ⟨e, he, hcommand⟩ := Option.map_eq_some_iff.mp h.entry
  obtain ⟨hpos, hlog⟩ := getLogEntry_eq_some he
  exact ⟨index - 1, e, by omega, hlog, hcommand⟩

theorem Committed.advances {n n' : RaftNode N C} {index : ℕ} {command : C}
    (h : n.Committed index command) (hadv : Advances n n') : n'.Committed index command := by
  obtain ⟨p, e, rfl, he, hcommand⟩ := h.exists_entry
  refine ⟨h.le.trans hadv.commit, ?_⟩
  have hle := h.le
  rw [getLogEntry_succ, hadv.log p (by omega), he, ← hcommand]
  rfl

theorem Committed.applied {n : RaftNode N C} {index : ℕ} {command : C}
    (h : n.Committed index command) (hok : CommitOk n) (hle : index ≤ n.volatile.lastApplied) :
    (index, command) ∈ n.applied := by
  obtain ⟨p, e, rfl, he, rfl⟩ := h.exists_entry
  exact hok.calls p e hle he

end RaftNode

/-! ## The cluster -/

namespace Cluster

open RaftNode (CommitOk Advances EntryAt)

/-- The handler of `r` would take over entries, and leaves what its node has committed. -/
def SparesCommitted (s : Cluster N C) (r : Rpc N C) : Prop :=
  match r.message.payload with
  | .appendEntries _ prev prevTerm entries _ =>
    (s.nodes r.dst).persistent.currentTerm ≤ r.message.term →
      (s.nodes r.dst).matchesPrev prev prevTerm = true → (s.nodes r.dst).SparesCommitted entries
  | .requestVote .. => True

/-- No AppendEntries overwrites an entry that its receiver has committed. -/
def KeepsCommitted (s : Cluster N C) : Action N C → Prop
  | .deliver j _ => match s.rpcs[j]? with
    | some r => r.message.term ≤ (s.nodes r.dst).persistent.currentTerm → s.SparesCommitted r
    | none => True
  | .resumeHandler j _ => match s.rpcs[j]? with
    | some r => s.SparesCommitted r
    | none => True
  | _ => True

instance [DecidableEq C] (s : Cluster N C) (r : Rpc N C) : Decidable (s.SparesCommitted r) := by
  unfold SparesCommitted RaftNode.SparesCommitted
  split <;> infer_instance

instance [DecidableEq C] (s : Cluster N C) (a : Action N C) : Decidable (s.KeepsCommitted a) := by
  unfold KeepsCommitted
  split
  · split <;> infer_instance
  · split <;> infer_instance
  · infer_instance

variable [DecidableEq N] {cfg : Config N} {s s' : Cluster N C}

omit [DecidableEq N] in
theorem InPlace.indexed (hplace : s.InPlace) (i : N) : Indexed (s.nodes i).persistent.log :=
  fun p e he => hplace p e (Or.inl ⟨i, he⟩)

omit [DecidableEq N] in
theorem advances_handleAppendEntries (hplace : s.InPlace) {i : N} (hok : CommitOk (s.nodes i))
    {j : ℕ} {r : Rpc N C} (hr : s.rpcs[j]? = some r) (hdst : r.dst = i)
    (hst : r.stage = .inFlight ∨ r.stage = .steppingDown) (hspares : s.SparesCommitted r)
    {leaderId : N} {prev prevTerm : ℕ} {entries : List (LogEntry C)} {leaderCommit : ℕ}
    (hpay : r.message.payload = .appendEntries leaderId prev prevTerm entries leaderCommit)
    (now : ℚ) :
    Advances (s.nodes i) ((s.nodes i).handleAppendEntries i now r.message.term leaderId prev
      prevTerm entries leaderCommit).1 := by
  subst hdst
  refine hok.handleAppendEntries ?_ ?_
  · unfold SparesCommitted at hspares
    rw [hpay] at hspares
    exact hspares
  · intro _ hmatch p e he
    have hat : ∀ p e, EntryAt prev entries p e → e.index = p + 1 := fun p e he =>
      hplace p e (Or.inr ⟨r, List.mem_of_getElem? hr, hst, by rw [hpay]; exact he⟩)
    rcases RaftNode.getElem?_foldl_mergeEntry (RaftNode.length_of_matchesPrev hmatch) hat he
      with hold | hnew
    · exact hplace.indexed r.dst p e hold
    · exact hat p e hnew

theorem SendsAs.advances {a : Action N C} {i : N} {m : RaftNode N C} (h : s.SendsAs a i m)
    (hok : CommitOk (s.nodes i)) : Advances (s.nodes i) m := by
  cases h with
  | unchanged => exact Advances.refl hok
  | @proposed command => exact hok.appendCommand command
  | answered _ _ _ heq => exact hok.same (RaftNode.sameProgress_handleResponse heq)

/-- Between crashes the committed part of every log only grows. -/
theorem advances_step {a : Action N C} (hplace : s.InPlace) (hok : ∀ i, CommitOk (s.nodes i))
    (hkeeps : s.KeepsCommitted a) (hcrash : a.crashFree = true) (h : s.step cfg a = some s')
    (i : N) : Advances (s.nodes i) (s'.nodes i) := by
  have hstep := nodeStep h i
  generalize s'.nodes i = n at hstep ⊢
  cases hstep with
  | idle => exact Advances.refl (hok i)
  | stands => exact (hok i).same ⟨rfl, rfl, rfl⟩
  | loses responses =>
    have hk := RaftNode.sameProgress_foldl_collectVote (s.nodes i) responses
    exact (hok i).same ⟨hk.volatile, hk.log, hk.applied⟩
  | wins responses =>
    have hk := RaftNode.sameProgress_foldl_collectVote (s.nodes i) responses
    exact (hok i).same ⟨hk.volatile, hk.log, hk.applied⟩
  | startsHeartbeat => exact (hok i).same ⟨rfl, rfl, rfl⟩
  | sends hm => exact hm.advances (hok i)
  | commits hm =>
    have hsends := hm.advances (hok i)
    exact hsends.trans (hsends.ok.tryCommit cfg)
  | applies => exact (hok i).applyCommitted
  | stepsDownOnResponse _ _ _ heq =>
    exact (hok i).same (RaftNode.sameProgress_handleResponse heq)
  | stepsDownOnRequest => exact (hok i).same ⟨rfl, rfl, rfl⟩
  | @handlesRequestVote j now r candidateId lastLogIndex lastLogTerm =>
    rcases RaftNode.handleRequestVote_cases i now (s.nodes i) r.message.term candidateId
      lastLogIndex lastLogTerm with heq | ⟨-, -, heq⟩
    · rw [heq]
      exact Advances.refl (hok i)
    · rw [heq]
      exact (hok i).same ⟨rfl, rfl, rfl⟩
  | @handlesAppendEntries j now r leaderId prev prevTerm entries leaderCommit hr hdst hst hpay =>
    unfold KeepsCommitted at hkeeps
    rcases hst with ⟨hst, rfl⟩ | ⟨hst, rfl, hle⟩
    · dsimp only at hkeeps
      rw [hr] at hkeeps
      exact advances_handleAppendEntries hplace (hok i) hr hdst (Or.inr hst) hkeeps hpay now
    · dsimp only at hkeeps
      rw [hr] at hkeeps
      exact advances_handleAppendEntries hplace (hok i) hr hdst (Or.inl hst)
        (hkeeps (hdst ▸ hle)) hpay now
  | restarts ha =>
    rcases ha with ⟨rfl, -⟩ | ⟨rfl, -⟩
    · cases hcrash
    · cases hcrash

theorem commitOk_step {a : Action N C} (hplace : s.InPlace) (hok : ∀ i, CommitOk (s.nodes i))
    (hkeeps : s.KeepsCommitted a) (h : s.step cfg a = some s') (i : N) :
    CommitOk (s'.nodes i) := by
  have hrestart : ∀ i' (file : Option (PersistentState N C)) now,
      CommitOk ((s.restart i' file now).nodes i) := by
    intro i' file now
    rcases eq_or_ne i i' with rfl | hne
    · rw [nodes_restart_self]
      exact RaftNode.commitOk_boot file now
    · rw [nodes_restart_of_ne s hne]
      exact hok i
  by_cases hcrash : a.crashFree = true
  · exact (advances_step hplace hok hkeeps hcrash h i).ok
  · cases stepped h with
    | crash => exact hrestart ..
    | crashSaving => exact hrestart ..
    | _ => exact absurd rfl hcrash

/-! ## The coroutine of `propose` -/

/-- A coroutine comes to the end of its loop of sends, and its node is then this one. -/
def roundEnds (s : Cluster N C) : Action N C → Option (ℕ × RaftNode N C)
  | .reply k => match s.tasks[k]? with
    | some ⟨i, _, .sending o j []⟩ =>
      (s.answerOf j).bind fun response =>
        match (s.nodes i).handleResponse o (some response) with
        | some (n, false) => some (k, n)
        | _ => none
    | _ => none
  | .noReply k => match s.tasks[k]? with
    | some ⟨i, _, .sending _ _ []⟩ => some (k, s.nodes i)
    | _ => none
  | .resume k => match s.tasks[k]? with
    | some ⟨i, _, .steppingDown []⟩ => some (k, s.nodes i)
    | _ => none
  | _ => none

theorem sameProgress_roundEnds {a : Action N C} {k : ℕ} {n : RaftNode N C} {t : Task N C}
    (h : s.roundEnds a = some (k, n)) (hk : s.tasks[k]? = some t) :
    RaftNode.SameProgress (s.nodes t.node) n := by
  unfold roundEnds at h
  split at h
  · split at h
    · rename_i ht
      obtain ⟨response, -, h⟩ := Option.bind_eq_some_iff.mp h
      split at h
      · rename_i heq
        obtain ⟨rfl, rfl⟩ := Prod.mk.inj (Option.some.inj h)
        obtain rfl := Option.some.inj (ht.symm.trans hk)
        exact RaftNode.sameProgress_handleResponse heq
      · cases h
    · cases h
  · split at h
    · rename_i ht
      obtain ⟨rfl, rfl⟩ := Prod.mk.inj (Option.some.inj h)
      obtain rfl := Option.some.inj (ht.symm.trans hk)
      exact ⟨rfl, rfl, rfl⟩
    · cases h
  · split at h
    · rename_i ht
      obtain ⟨rfl, rfl⟩ := Prod.mk.inj (Option.some.inj h)
      obtain rfl := Option.some.inj (ht.symm.trans hk)
      exact ⟨rfl, rfl, rfl⟩
    · cases h
  · cases h

/-- Where `propose` is after `_apply_committed` ran. -/
def afterApply (suspended : Bool) : Pc N C := if suspended then .applying else .returned

/-- The coroutine of `propose` is still sending, or is over without a result. -/
def unfinished (pc : Pc N C) : Bool :=
  match pc with
  | .applying => false
  | .returned => false
  | _ => true

/-- What one step does to the coroutine `t` of a `propose`. -/
inductive ProposeStep (cfg : Config N) (s : Cluster N C) (a : Action N C) (s' : Cluster N C)
    (k : ℕ) (t : Task N C) : Task N C → Prop
  | stays : ProposeStep cfg s a s' k t t
  | goesOn {pc : Pc N C} (hpc : unfinished pc = true) :
      ProposeStep cfg s a s' k t { t with pc := pc }
  | commits {n : RaftNode N C} (hround : s.roundEnds a = some (k, n))
      (hnode : s'.nodes t.node = (n.tryCommit cfg).1) :
      ProposeStep cfg s a s' k t { t with pc := afterApply (n.tryCommit cfg).2 }
  | applies (hpc : t.pc = .applying)
      (hnode : s'.nodes t.node = (s.nodes t.node).applyCommitted.1) :
      ProposeStep cfg s a s' k t { t with pc := afterApply (s.nodes t.node).applyCommitted.2 }

omit [DecidableEq N] in
theorem tasks_setPc {k : ℕ} {t t' : Task N C} (hk : s.tasks[k]? = some t') (pc : Pc N C) :
    (s.setPc k t pc).tasks[k]? = some { t with pc := pc } :=
  getElem?_set_of_some hk _

omit [DecidableEq N] in
theorem tasks_setPc_of_ne {k k' : ℕ} (h : k' ≠ k) (t : Task N C) (pc : Pc N C) :
    (s.setPc k t pc).tasks[k']? = s.tasks[k']? := List.getElem?_set_ne h.symm

theorem tasks_sendNext_of_ne {k k' : ℕ} (h : k' ≠ k) (t : Task N C) (rest : List N) :
    (s.sendNext cfg k t rest).tasks[k']? = s.tasks[k']? := by
  cases rest with
  | nil => exact tasks_setPc_of_ne h t _
  | cons nodeId rest =>
    unfold sendNext
    cases (s.nodes t.node).leaderState with
    | none => exact tasks_setPc_of_ne h t _
    | some ls => exact tasks_setPc_of_ne h t _

theorem tasks_sendAppendEntries_of_ne {k k' : ℕ} (h : k' ≠ k) (t : Task N C) :
    (s.sendAppendEntries cfg k t).tasks[k']? = s.tasks[k']? := by
  unfold sendAppendEntries
  split
  · exact tasks_setPc_of_ne h t _
  · exact tasks_sendNext_of_ne h t _

theorem tasks_sendReturns_of_ne {k k' : ℕ} (h : k' ≠ k) (t : Task N C)
    (o : RaftNode.Outgoing N C) (rest : List N) (response : Option (Message N Response)) :
    (s.sendReturns cfg k t o rest response).tasks[k']? = s.tasks[k']? := by
  unfold sendReturns
  split
  · exact tasks_setPc_of_ne h t _
  · exact tasks_setPc_of_ne h t _
  · exact tasks_sendNext_of_ne (s := s.setNode t.node _) h t rest

variable (cfg) in
/-- The loop of sends goes on, or ends in `_try_commit`. -/
theorem sendNext_cases {k : ℕ} {t t' : Task N C} (hk : s.tasks[k]? = some t')
    (hkind : t.kind = .propose) (rest : List N) :
    (∃ pc, unfinished pc = true ∧ (s.sendNext cfg k t rest).tasks[k]? = some { t with pc := pc }) ∨
      (rest = [] ∧
        (s.sendNext cfg k t rest).nodes t.node = ((s.nodes t.node).tryCommit cfg).1 ∧
        (s.sendNext cfg k t rest).tasks[k]? =
          some { t with pc := afterApply ((s.nodes t.node).tryCommit cfg).2 }) := by
  cases rest with
  | nil =>
    refine Or.inr ⟨rfl, nodes_setNode_self s t.node _, ?_⟩
    show ((s.setNode t.node _).setPc k t _).tasks[k]? = _
    rw [tasks_setPc (s := s.setNode t.node _) hk, hkind]
    rfl
  | cons nodeId rest =>
    unfold sendNext
    cases (s.nodes t.node).leaderState with
    | none =>
      exact Or.inl ⟨.raised, rfl, tasks_setPc hk _⟩
    | some ls =>
      exact Or.inl ⟨.sending ((s.nodes t.node).outgoing ls nodeId) s.rpcs.length rest, rfl,
        tasks_setPc (s := s.post t.node nodeId _) hk _⟩

theorem proposeStep_sendReturns {a : Action N C} {k : ℕ} {t : Task N C}
    (hk : s.tasks[k]? = some t) (hkind : t.kind = .propose) {o : RaftNode.Outgoing N C}
    {rest : List N} {response : Option (Message N Response)}
    (hround : ∀ n, rest = [] → (s.nodes t.node).handleResponse o response = some (n, false) →
      s.roundEnds a = some (k, n)) :
    ∃ t', (s.sendReturns cfg k t o rest response).tasks[k]? = some t' ∧
      ProposeStep cfg s a (s.sendReturns cfg k t o rest response) k t t' := by
  unfold sendReturns
  split
  · exact ⟨_, tasks_setPc hk _, .goesOn rfl⟩
  · exact ⟨_, tasks_setPc (s := s.setNode t.node _) hk _,
      .goesOn rfl⟩
  · rename_i n heq
    rcases sendNext_cases cfg (s := s.setNode t.node n) hk hkind rest with
      ⟨pc, hpc, ht⟩ | ⟨hrest, hnode, ht⟩
    · exact ⟨_, ht, .goesOn hpc⟩
    · rw [nodes_setNode_self] at hnode ht
      exact ⟨_, ht, .commits (hround n hrest heq) hnode⟩

omit [DecidableEq N] in
theorem tasks_cancelTask (k' : ℕ) {k : ℕ} {t : Task N C} (hk : s.tasks[k]? = some t) :
    ∃ t', (s.tasks.modify k' cancelTask)[k]? = some t' ∧ (t' = t ∨ t' = cancelTask t) := by
  rcases eq_or_ne k' k with rfl | hne
  · exact ⟨cancelTask t, by rw [List.getElem?_modify_eq, hk]; rfl, Or.inr rfl⟩
  · exact ⟨t, by rw [List.getElem?_modify_ne _ _ hne, hk], Or.inl rfl⟩

theorem proposeStep_cancelTask {a : Action N C} {k : ℕ} {t : Task N C} :
    ProposeStep cfg s a s' k t (cancelTask t) := by
  unfold cancelTask
  split
  · exact .stays
  · exact .stays
  · exact .goesOn rfl

theorem proposeStep_restart {a : Action N C} {k : ℕ} {t : Task N C} (hk : s.tasks[k]? = some t)
    (i : N) (stateFile : Option (PersistentState N C)) (now : ℚ) :
    ∃ t', (s.restart i stateFile now).tasks[k]? = some t' ∧
      ProposeStep cfg s a (s.restart i stateFile now) k t t' := by
  refine ⟨if t.node = i then cancelTask t else t, ?_, ?_⟩
  · show (s.tasks.map _)[k]? = _
    rw [List.getElem?_map, hk]
    rfl
  · split
    · exact proposeStep_cancelTask
    · exact .stays

/-- A `propose` commits only at the end of its loop of sends. -/
theorem proposeStep_step {a : Action N C} (h : s.step cfg a = some s') {k : ℕ} {t : Task N C}
    (hk : s.tasks[k]? = some t) (hkind : t.kind = .propose) :
    ∃ t', s'.tasks[k]? = some t' ∧ ProposeStep cfg s a s' k t t' := by
  -- a step that runs another coroutine
  have other : ∀ {k' : ℕ}, (k ≠ k' → s'.tasks[k]? = s.tasks[k]?) → k ≠ k' →
      ∃ t', s'.tasks[k]? = some t' ∧ ProposeStep cfg s a s' k t t' :=
    fun hsame hne => ⟨t, (hsame hne).trans hk, .stays⟩
  cases stepped h with
  | electionTimeout => exact ⟨t, hk, .stays⟩
  | electionEnds =>
    unfold countVotes
    split
    · exact ⟨t, hk, .stays⟩
    · exact ⟨t, hk, .stays⟩
  | @becameLeader i =>
    unfold startHeartbeat
    cases (s.nodes i).heartbeatTask with
    | none => exact ⟨t, getElem?_append_of_some hk _, .stays⟩
    | some k' =>
      obtain ⟨t', ht', hcase⟩ := tasks_cancelTask k' hk
      refine ⟨t', getElem?_append_of_some ht' _, ?_⟩
      rcases hcase with rfl | rfl
      · exact .stays
      · exact proposeStep_cancelTask
  | @propose i command =>
    have hlt := (List.getElem?_eq_some_iff.mp hk).1
    refine other (fun hne => ?_) hlt.ne
    rw [tasks_sendAppendEntries_of_ne hne]
    exact List.getElem?_append_left hlt
  | @heartbeat k' i ht =>
    refine other (fun hne => tasks_sendAppendEntries_of_ne hne _) ?_
    rintro rfl
    rw [hk] at ht
    obtain rfl := Option.some.inj ht
    cases hkind
  | @heartbeatEnds k' i ht =>
    refine other (fun hne => tasks_setPc_of_ne hne _ _) ?_
    rintro rfl
    rw [hk] at ht
    obtain rfl := Option.some.inj ht
    cases hkind
  | @reply k' j i kind o rest response ht hans =>
    rcases eq_or_ne k k' with rfl | hne
    · obtain rfl := Option.some.inj (hk.symm.trans ht)
      refine proposeStep_sendReturns hk hkind fun n hrest heq => ?_
      subst hrest
      simp only [roundEnds, hk, hans, Option.bind_some]
      rw [heq]
    · exact other (fun hne => tasks_sendReturns_of_ne hne _ _ _ _) hne
  | @noReply k' j i kind o rest ht =>
    rcases eq_or_ne k k' with rfl | hne
    · obtain rfl := Option.some.inj (hk.symm.trans ht)
      refine proposeStep_sendReturns hk hkind fun n hrest heq => ?_
      subst hrest
      obtain ⟨rfl, -⟩ := Prod.mk.inj (Option.some.inj heq)
      simp only [roundEnds, hk]
    · exact other (fun hne => tasks_sendReturns_of_ne hne _ _ _ _) hne
  | @resumeSending k' i kind rest ht =>
    rcases eq_or_ne k k' with rfl | hne
    · obtain rfl := Option.some.inj (hk.symm.trans ht)
      rcases sendNext_cases cfg hk hkind rest with ⟨pc, hpc, ht'⟩ | ⟨rfl, hnode, ht'⟩
      · exact ⟨_, ht', .goesOn hpc⟩
      · exact ⟨_, ht', .commits (by simp only [roundEnds, hk]) hnode⟩
    · exact other (fun hne => tasks_sendNext_of_ne hne _ _) hne
  | @resumeApplying k' i kind ht =>
    rcases eq_or_ne k k' with rfl | hne
    · obtain rfl := Option.some.inj (hk.symm.trans ht)
      refine ⟨_, ?_, .applies rfl (nodes_setNode_self s i _)⟩
      obtain rfl : kind = .propose := hkind
      exact tasks_setPc (s := s.setNode i _) hk _
    · exact other (fun hne => tasks_setPc_of_ne (s := s.setNode i _) hne _ _) hne
  | @raise k' i kind ht =>
    rcases eq_or_ne k k' with rfl | hne
    · obtain rfl := Option.some.inj (hk.symm.trans ht)
      exact ⟨_, tasks_setPc hk _, .goesOn rfl⟩
    · exact other (fun hne => tasks_setPc_of_ne hne _ _) hne
  | @deliver j now r =>
    refine ⟨t, ?_, .stays⟩
    unfold deliver handle
    split
    · exact hk
    · split <;> exact hk
  | resumeHandling =>
    refine ⟨t, ?_, .stays⟩
    unfold handle
    split <;> exact hk
  | resumeHandlerApplying => exact ⟨t, hk, .stays⟩
  | raiseHandler => exact ⟨t, hk, .stays⟩
  | crash => exact proposeStep_restart hk _ _ _
  | crashSaving => exact proposeStep_restart hk _ _ _

/-- A leader has its `leader_state`. -/
theorem leaderState_step {a : Action N C}
    (hls : ∀ i, (s.nodes i).state = .leader → (s.nodes i).leaderState.isSome = true)
    (h : s.step cfg a = some s') (i : N) (hl : (s'.nodes i).state = .leader) :
    (s'.nodes i).leaderState.isSome = true := by
  cases termStep_step h i with
  | stays hk => exact hk.leaderState ▸ hls i (hk.leader.mp hl)
  | stands _ heq =>
    rw [heq] at hl
    cases hl
  | wins _ _ _ _ hsome => exact hsome
  | votes _ heq =>
    rw [heq] at hl ⊢
    exact hls i hl
  | accepts _ _ _ _ _ hk => exact hk.leaderState ▸ hls i (hk.leader.mp hl)
  | stepsDownOnRequest _ _ _ _ _ heq =>
    rw [heq] at hl
    cases hl
  | stepsDownOnResponse _ _ _ _ _ heq =>
    rw [heq] at hl
    cases hl
  | restarts heq =>
    rw [heq] at hl
    cases hl

omit [DecidableEq N] in
theorem log_tryCommit (cfg : Config N) (n : RaftNode N C) :
    (n.tryCommit cfg).1.persistent.log = n.persistent.log := by
  rcases n.tryCommit_eq cfg with heq | ⟨ls, c, -, -, heq⟩
  · rw [heq]
  · rw [heq]
    obtain ⟨a, calls, heq', -⟩ :=
      (n.withVolatile { n.volatile with commitIndex := c } n.applied).applyCommitted_eq
    rw [heq']
    rfl

/-- A node that is alone has a majority. -/
theorem commits_alone {i : N} (hi : i ∈ cfg.nodes) (halone : cfg.getOtherNodes i = [])
    {n : RaftNode N C} (hs : n.state = .leader) (hls : n.leaderState.isSome = true)
    (command : C) :
    (n.appendCommand command).commits cfg (n.persistent.log.length + 1) = true := by
  obtain ⟨ls, hls⟩ := Option.isSome_iff_exists.mp hls
  have hall : ∀ j ∈ cfg.nodes, j = i := by
    intro j hj
    by_contra hne
    have : j ∈ cfg.getOtherNodes i := List.mem_filter.mpr ⟨hj, by simpa using hne⟩
    rw [halone] at this
    cases this
  have hone : cfg.getMajority = 1 := by
    have hlen : cfg.nodes.length ≤ 1 := by
      rw [← cfg.nodup.dedup, ← List.card_toFinset, Finset.card_le_one]
      intro a ha b hb
      rw [hall a (List.mem_toFinset.mp ha), hall b (List.mem_toFinset.mp hb)]
    have := List.length_pos_of_mem hi
    unfold Config.getMajority
    omega
  have hentry : (n.appendCommand command).getLogEntry (n.persistent.log.length + 1) =
      some (n.newEntry command) := by
    rw [RaftNode.getLogEntry_succ]
    show (n.persistent.log ++ [n.newEntry command])[n.persistent.log.length]? = _
    exact List.getElem?_concat_length
  have hstate : (n.appendCommand command).state = .leader := hs
  have hleader : (n.appendCommand command).leaderState = some ls := hls
  unfold RaftNode.commits
  rw [hstate, hleader]
  dsimp only
  refine Bool.or_eq_true_iff.mpr (Or.inr (List.any_eq_true.mpr
    ⟨n.persistent.log.length + 1, ?_, ?_⟩))
  · refine List.mem_range'_1.mpr ⟨le_rfl, ?_⟩
    have : (n.appendCommand command).persistent.log.length = n.persistent.log.length + 1 := by
      show (n.persistent.log ++ [_]).length = _
      simp
    omega
  · rw [hentry]
    refine Bool.and_eq_true_iff.mpr ⟨by simp [RaftNode.newEntry]; rfl, ?_⟩
    rw [hone]
    simp [RaftNode.matchCount]

/-- The coroutine that a `propose` starts: it sends, or its node is alone and has committed. -/
theorem tasks_propose {i : N} {command : C} (hi : i ∈ cfg.nodes)
    (hs : (s.nodes i).state = .leader) (hls : (s.nodes i).leaderState.isSome = true)
    (h : s.step cfg (.propose i command) = some s') :
    ∃ t, s'.tasks[s.tasks.length]? = some t ∧ t.node = i ∧ t.kind = .propose ∧
      (unfinished t.pc = true ∨
        ((s.nodes i).appendCommand command).commits cfg ((s.nodes i).persistent.log.length + 1) =
          true ∧
        s'.nodes i = (((s.nodes i).appendCommand command).tryCommit cfg).1 ∧
        t.pc = afterApply (((s.nodes i).appendCommand command).tryCommit cfg).2) := by
  cases stepped h with
  | propose =>
    let m := (s.setNode i ((s.nodes i).appendCommand command)).spawn ⟨i, .propose, .looping⟩
    have hnode : m.nodes i = (s.nodes i).appendCommand command := nodes_setNode_self s i _
    have hk : m.tasks[s.tasks.length]? = some ⟨i, .propose, .looping⟩ :=
      List.getElem?_concat_length
    have hsend : m.sendAppendEntries cfg s.tasks.length ⟨i, .propose, .looping⟩ =
        m.sendNext cfg s.tasks.length ⟨i, .propose, .looping⟩ (cfg.getOtherNodes i) := by
      unfold sendAppendEntries
      rw [if_neg]
      rw [hnode]
      rintro (hnot | hnone)
      · exact hnot hs
      · obtain ⟨ls, hls⟩ := Option.isSome_iff_exists.mp hls
        have hnone : (s.nodes i).leaderState.isNone = true := hnone
        rw [hls] at hnone
        cases hnone
    rw [show (((s.setNode i ((s.nodes i).appendCommand command)).spawn
        ⟨i, .propose, .looping⟩).sendAppendEntries cfg s.tasks.length ⟨i, .propose, .looping⟩) =
      m.sendNext cfg s.tasks.length ⟨i, .propose, .looping⟩ (cfg.getOtherNodes i) from hsend]
    rcases sendNext_cases cfg (t := ⟨i, .propose, .looping⟩) hk rfl
      (cfg.getOtherNodes i) with ⟨pc, hpc, ht⟩ | ⟨halone, hcommit, ht⟩
    · exact ⟨_, ht, rfl, rfl, Or.inl hpc⟩
    · rw [hnode] at hcommit ht
      exact ⟨_, ht, rfl, rfl, Or.inr ⟨commits_alone hi halone hs hls command, hcommit, rfl⟩⟩

end Cluster

end Pynchronize
