import Pynchronize.Raft.Safety
import Pynchronize.Raft.Commitment

/-!
# What is committed stays

`leader_has_committed`: the committed part of any log is in the log of every
later leader. `committed_survives`: it also stays in its own log, crashes and
restarts included.
-/

namespace Pynchronize

open Lib Lib.Replication

variable {N C : Type*} [DecidableEq N] {cfg : Config N} {start : N → ℚ}

/-- The entries that a node knows to be committed. -/
def RaftNode.committedLog (n : RaftNode N C) : List (LogEntry C) :=
  n.persistent.log.take n.volatile.commitIndex

omit [DecidableEq N] in
theorem RaftNode.log_followCommit (n : RaftNode N C) (leaderCommit : ℕ) :
    (n.followCommit leaderCommit).1.persistent.log = n.persistent.log := by
  rcases n.followCommit_eq leaderCommit with heq | ⟨-, heq⟩
  · rw [heq]
  · rw [heq]
    obtain ⟨a, calls, heq', -⟩ := (n.withVolatile { n.volatile with
      commitIndex := min leaderCommit n.getLastLogIndex } n.applied).applyCommitted_eq
    rw [heq']
    rfl

namespace Cluster

variable {s s' : Cluster N C} {A : History N C} {i : N} {x : List (LogEntry C)}

/-! ## The log of one node -/

theorem SendsAs.log_prefix {a : Action N C} {m : RaftNode N C} (h : s.SendsAs a i m) :
    (s.nodes i).persistent.log <+: m.persistent.log := by
  cases h with
  | unchanged => exact List.prefix_rfl
  | proposed => exact List.prefix_append _ _
  | answered _ _ _ heq => rw [(RaftNode.sameProgress_handleResponse heq).log]

/-- A prefix of a log that the leaders from its node's term on have survives the handler of an
    AppendEntries. -/
theorem prefix_handleAppendEntries {clean : Prop} (h : Coupled cfg clean s A)
    (hA : Consistent LogEntry.term cfg.quorums A) (hi : i ∈ cfg.nodes)
    (hx : x <+: (s.nodes i).persistent.log)
    (hleaders : ∀ T y, (s.nodes i).persistent.currentTerm ≤ T → A.elected T = some y →
      x <+: A.leaderLog T)
    {src leaderId : N} {T prev prevTerm lc : ℕ} {entries : List (LogEntry C)}
    (hreq : RequestOk cfg clean A src T (.appendEntries leaderId prev prevTerm entries lc))
    (now : ℚ) :
    x <+: ((s.nodes i).handleAppendEntries i now T leaderId prev prevTerm entries
      lc).1.persistent.log := by
  classical
  obtain ⟨⟨Q, hQ⟩, hslice, -⟩ := hreq
  have hn := h.nodes i hi
  rcases Nat.lt_or_ge T (s.nodes i).persistent.currentTerm with hlt | hge
  · rw [RaftNode.handleAppendEntries_of_lt i now _ leaderId entries lc hlt]
    exact hx
  · cases hm : (s.nodes i).matchesPrev prev prevTerm with
    | false =>
      rw [RaftNode.handleAppendEntries_of_not_matches i now _ leaderId entries lc hge hm]
      exact hx
    | true =>
      rw [RaftNode.handleAppendEntries_of_matches i now _ leaderId entries lc hge hm,
        RaftNode.log_followCommit, RaftNode.log_mergeEntries]
      obtain ⟨hprev, hpre, htake⟩ := hn.take_eq_of_matchesPrev hA hQ hslice hm
      have hmerge := foldl_mergeEntry (h.leaderLogs T _ hQ) hpre hprev htake (hn.matching hA hQ)
      show x <+: entries.foldl RaftNode.mergeEntry (s.nodes i).persistent.log
      rw [hmerge]
      exact prefix_mergeTake (hleaders T _ hge hQ) hx

theorem prefix_step {clean : Prop} (h : Coupled cfg clean s A)
    (hA : Consistent LogEntry.term cfg.quorums A) (hi : i ∈ cfg.nodes)
    (hx : x <+: (s.nodes i).persistent.log)
    (hleaders : ∀ T y, (s.nodes i).persistent.currentTerm ≤ T → A.elected T = some y →
      x <+: A.leaderLog T)
    {a : Action N C} (hsave : a.savesWhole = true) (hstep : s.step cfg a = some s') :
    x <+: (s'.nodes i).persistent.log := by
  have happlied : (s.nodes i).applyCommitted.1.persistent.log = (s.nodes i).persistent.log := by
    obtain ⟨a, calls, heq, -⟩ := (s.nodes i).applyCommitted_eq
    rw [heq]
    rfl
  have hnode := nodeStep hstep i
  generalize s'.nodes i = n at hnode ⊢
  cases hnode with
  | idle => exact hx
  | stands => exact hx
  | loses responses =>
    have hk := RaftNode.sameProgress_foldl_collectVote (s.nodes i) responses
    exact hk.log ▸ hx
  | wins responses =>
    have hk := RaftNode.sameProgress_foldl_collectVote (s.nodes i) responses
    exact hk.log ▸ hx
  | startsHeartbeat => exact hx
  | sends hm => exact hx.trans hm.log_prefix
  | commits hm =>
    rw [log_tryCommit]
    exact hx.trans hm.log_prefix
  | applies => exact happlied ▸ hx
  | stepsDownOnResponse _ _ _ heq =>
    rw [(RaftNode.sameProgress_handleResponse heq).log]
    exact hx
  | stepsDownOnRequest => exact hx
  | @handlesRequestVote j now r candidateId lastLogIndex lastLogTerm =>
    rcases RaftNode.handleRequestVote_cases i now (s.nodes i) r.message.term candidateId
      lastLogIndex lastLogTerm with heq | ⟨-, -, heq⟩
    · rw [heq]
      exact hx
    · rw [heq]
      exact hx
  | @handlesAppendEntries j now r leaderId prev prevTerm entries leaderCommit hr hdst hst hpay =>
    have hreq := (h.rpcs r (List.mem_of_getElem? hr)).request
    rw [hpay] at hreq
    exact prefix_handleAppendEntries h hA hi hx hleaders hreq now
  | restarts ha =>
    rcases ha with ⟨rfl, rfl⟩ | ⟨rfl, -⟩
    · show x <+: ((s.nodes i).stateFile.getD {}).log
      rw [(h.nodes i hi).file]
      exact hx
    · cases hsave

/-! ## Committed entries -/

/-- `x` is committed, and node `i` has it. -/
structure Keeps (cfg : Config N) (i : N) (x : List (LogEntry C)) (s : Cluster N C)
    (A : History N C) : Prop where
  consistent : Consistent LogEntry.term cfg.quorums A
  coupled : Coupled cfg True s A
  settled : IsSettled cfg A (A.term i) x x.length
  kept : x <+: (s.nodes i).persistent.log

theorem keeps_committedLog (hA : Consistent LogEntry.term cfg.quorums A)
    (h : Coupled cfg True s A) (hi : i ∈ cfg.nodes) :
    Keeps cfg i (s.nodes i).committedLog s A where
  consistent := hA
  coupled := h
  settled := by
    have hset := (h.nodes i hi).settled trivial
    have hlen : (s.nodes i).committedLog.length = (s.nodes i).volatile.commitIndex := by
      rw [RaftNode.committedLog, List.length_take]
      exact min_eq_left hset.1
    rw [hlen]
    exact hset.of_isPrefix List.prefix_rfl
  kept := List.take_prefix _ _

theorem Keeps.prefix_leaderLog (h : Keeps cfg i x s A) {T : ℕ} {y : N × Finset N}
    (hT : A.term i ≤ T) (hy : A.elected T = some y) : x <+: A.leaderLog T := by
  have := h.settled.prefix_leaderLog h.consistent hT hy
  rwa [List.take_length] at this

theorem Keeps.step (h : Keeps cfg i x s A) (hi : i ∈ cfg.nodes) {a : Action N C}
    (ha : Followed True s a) (hstep : s.step cfg a = some s') : ∃ A', Keeps cfg i x s' A' := by
  obtain ⟨A', g, hA', h'⟩ := Simulated.step h.coupled h.consistent ha.1 ha.2 hstep
  refine ⟨A', hA', h', Settled.mono h.settled h.consistent g (g.term i), ?_⟩
  refine prefix_step h.coupled h.consistent hi h.kept (fun T y hT hy => ?_) ha.1 hstep
  rw [(h.coupled.nodes i hi).term_eq] at hT
  exact h.prefix_leaderLog hT hy

/-- Node 0 crashes after it has committed a command, and node 1 wins the next term. -/
def takeover : List (Action (Fin 3) ℕ) :=
  List.flatten [[.crash 0 4, .electionTimeout 1 (1 / 5) 5], handled 6 5, [.electionEnds 1 [2]]]

theorem takeover_fresh : (boot fun _ => 0 : Cluster (Fin 3) ℕ).EachStep threeNodes
    (fun t a => t.staleSuccess a = false) ((electionOfZero ++ replication) ++ takeover) := by
  decide +kernel

/-- What a node has committed stays at the head of its log, whatever crashes and whatever
    leaders come, as long as no stale success is booked. -/
theorem committed_survives {before after : List (Action N C)}
    (hsave : ∀ a ∈ before ++ after, a.savesWhole = true)
    (hfresh : (boot start).EachStep cfg (fun t a => t.staleSuccess a = false) (before ++ after))
    (hs : (boot start).run cfg before = some s) (hs' : s.run cfg after = some s')
    (hi : i ∈ cfg.nodes) :
    (s.nodes i).committedLog <+: (s'.nodes i).persistent.log := by
  have hacts : (boot start).EachStep cfg (Followed True) (before ++ after) :=
    hfresh.imp fun t a ha hstale => ⟨hsave a ha, fun _ => hstale⟩
  obtain ⟨hbefore, hafter⟩ := Transition.EachStep.append hacts
  obtain ⟨A, hA, h⟩ := Simulated.boot hbefore hs
  obtain ⟨A', h'⟩ := Transition.run_preserves
    (I := fun t => ∃ A, Keeps cfg i (s.nodes i).committedLog t A)
    (fun t a t' ⟨_, ht⟩ ha hstep => ht.step hi ha hstep) ⟨A, keeps_committedLog hA h hi⟩
    (hafter s hs) hs'
  exact h'.kept

theorem committed_survives_takeover :
    ∃ s s' : Cluster (Fin 3) ℕ, (s.nodes 0).committedLog ≠ [] ∧
      (s'.nodes 0).volatile.commitIndex = 0 ∧
      (s.nodes 0).committedLog <+: (s'.nodes 0).persistent.log := by
  have hrun : ((boot fun _ => 0 : Cluster (Fin 3) ℕ).run threeNodes
      (electionOfZero ++ replication)).any
      (fun s => decide ((s.nodes 0).committedLog ≠ []) && (s.run threeNodes takeover).any
        fun s' => decide ((s'.nodes 0).volatile.commitIndex = 0)) = true := by
    decide +kernel
  obtain ⟨s, hs, hp⟩ := (Option.any_eq_true _ _).mp hrun
  obtain ⟨hne, hrest⟩ := Bool.and_eq_true_iff.mp hp
  obtain ⟨s', hs', hzero⟩ := (Option.any_eq_true _ _).mp hrest
  exact ⟨s, s', of_decide_eq_true hne, of_decide_eq_true hzero,
    committed_survives (by decide) takeover_fresh hs hs' (by decide)⟩

/-- What any node has committed is in the log of every node that leads its term or a later one
    from then on. -/
theorem leader_has_committed {before after : List (Action N C)}
    (hsave : ∀ a ∈ before ++ after, a.savesWhole = true)
    (hfresh : (boot start).EachStep cfg (fun t a => t.staleSuccess a = false) (before ++ after))
    (hs : (boot start).run cfg before = some s) (hs' : s.run cfg after = some s')
    (hi : i ∈ cfg.nodes) {j : N} (hj : j ∈ cfg.nodes) (hl : (s'.nodes j).state = .leader)
    (hterm : (s.nodes i).persistent.currentTerm ≤ (s'.nodes j).persistent.currentTerm) :
    (s.nodes i).committedLog <+: (s'.nodes j).persistent.log := by
  have hacts : (boot start).EachStep cfg (Followed True) (before ++ after) :=
    hfresh.imp fun t a ha hstale => ⟨hsave a ha, fun _ => hstale⟩
  obtain ⟨A, A', hA, h, g, hA', h'⟩ := simulated_twice hacts hs hs'
  obtain ⟨Q, hQ, hL⟩ := (h'.nodes j hj).leads hl
  rw [(h.nodes i hi).term_eq, (h'.nodes j hj).term_eq] at hterm
  have hset := Settled.mono ((h.nodes i hi).settled trivial) hA g le_rfl
  rw [(h'.nodes j hj).log_eq, ← hL]
  exact hset.prefix_leaderLog hA' hterm hQ

theorem leader_has_committed_takeover :
    ∃ s s' : Cluster (Fin 3) ℕ, (s.nodes 0).committedLog ≠ [] ∧ (s'.nodes 1).state = .leader ∧
      (s.nodes 0).committedLog <+: (s'.nodes 1).persistent.log := by
  have hrun : ((boot fun _ => 0 : Cluster (Fin 3) ℕ).run threeNodes
      (electionOfZero ++ replication)).any
      (fun s => decide ((s.nodes 0).committedLog ≠ []) && (s.run threeNodes takeover).any
        fun s' => decide ((s'.nodes 1).state = .leader) && decide
          ((s.nodes 0).persistent.currentTerm ≤ (s'.nodes 1).persistent.currentTerm)) = true := by
    decide +kernel
  obtain ⟨s, hs, hp⟩ := (Option.any_eq_true _ _).mp hrun
  obtain ⟨hne, hrest⟩ := Bool.and_eq_true_iff.mp hp
  obtain ⟨s', hs', hq⟩ := (Option.any_eq_true _ _).mp hrest
  obtain ⟨hl, hterm⟩ := Bool.and_eq_true_iff.mp hq
  exact ⟨s, s', of_decide_eq_true hne, of_decide_eq_true hl,
    leader_has_committed (by decide) takeover_fresh hs hs' (by decide) (by decide)
      (of_decide_eq_true hl) (of_decide_eq_true hterm)⟩

/-- The calls of the command handler are numbered from 1 on. -/
theorem fst_of_applied (h : Coupled cfg True s A) (hi : i ∈ cfg.nodes) {p : ℕ} {c : ℕ × C}
    (hc : (s.nodes i).applied[p]? = some c) : c.1 = p + 1 := by
  have hfst : ((s.nodes i).applied.map Prod.fst)[p]? = some c.1 := by
    rw [List.getElem?_map, hc]
    rfl
  rw [((h.nodes i hi).order trivial).1] at hfst
  obtain ⟨hlt, hget⟩ := List.getElem?_eq_some_iff.mp hfst
  rw [List.getElem_range'] at hget
  omega

end Cluster

end Pynchronize
