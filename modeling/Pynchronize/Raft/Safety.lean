import Mathlib.Algebra.GroupWithZero.Nat
import Pynchronize.Raft.Roles

/-!
# Election safety, log matching and state machine safety

The runs start with freshly booted nodes. Elections and logs are safe in every
run whose crashes spare `_save_state`; what is committed is safe as long as no
stale success is booked.
-/

namespace Pynchronize.Cluster

open Lib Lib.Replication

variable {N C : Type*} [DecidableEq N] {cfg : Config N} {clean : Prop} {start : N → ℚ}

/-- Two states of a run and the histories that explain them. -/
theorem simulated_twice {before after : List (Action N C)} {s s' : Cluster N C}
    (hacts : (boot start).EachStep cfg (Followed clean) (before ++ after))
    (hs : (boot start).run cfg before = some s) (hs' : s.run cfg after = some s') :
    ∃ A A', Consistent LogEntry.term cfg.quorums A ∧ Coupled cfg clean s A ∧ Extends A A' ∧
      Consistent LogEntry.term cfg.quorums A' ∧ Coupled cfg clean s' A' := by
  obtain ⟨hbefore, hafter⟩ := Transition.EachStep.append hacts
  obtain ⟨A, hA, h⟩ := Simulated.boot hbefore hs
  obtain ⟨A', g, hA', h'⟩ := Simulated.run hA h (hafter s hs) hs'
  exact ⟨A, A', hA, h, g, hA', h'⟩

theorem followed_of_savesWhole {s : Cluster N C} {acts : List (Action N C)}
    (hsave : ∀ a ∈ acts, a.savesWhole = true) : s.EachStep cfg (Followed False) acts :=
  Transition.eachStep_of_forall s fun _ a ha => ⟨hsave a ha, fun hc => hc.elim⟩

/-! ## Concrete runs -/

/-- The nodes of three are written 0, 1 and 2. -/
scoped instance neZero_three : NeZero 3 := ⟨by decide⟩

/-- The nodes of five are written 0 to 4. -/
scoped instance neZero_five : NeZero 5 := ⟨by decide⟩

theorem nodup_three : ([0, 1, 2] : List (Fin 3)).Nodup := by decide

def threeNodes : Config (Fin 3) := { nodes := [0, 1, 2], nodup := nodup_three }

def fiveNodes : Config (Fin 5) := { nodes := [0, 1, 2, 3, 4], nodup := by decide }

/-- A request of a later term is delivered and answered. -/
def handled {N : Type*} (rpc : ℕ) (now : ℚ) : List (Action N ℕ) :=
  [.deliver rpc now, .resumeHandler rpc now]

def electionOfZero : List (Action (Fin 3) ℕ) :=
  List.flatten [[.electionTimeout 0 (1 / 5) 1], handled 0 1, [.electionEnds 0 [1]]]

def reelectionOfZero : List (Action (Fin 3) ℕ) :=
  List.flatten [[.electionTimeout 0 (1 / 5) 3], handled 2 3, [.electionEnds 0 [1]]]

/-- Node 0 replicates a command to node 1, where both apply it. -/
def replication : List (Action (Fin 3) ℕ) :=
  [.becameLeader 0, .propose 0 7, .deliver 2 2, .reply 1, .noReply 1, .resume 1, .heartbeat 0,
    .deliver 4 3, .resumeHandler 4 3]

/-- Node 0 leads term 1 and waits for the answer of node 1 to three entries, while node 2 wins
    term 2 and replaces its log. -/
def waitingForAnswer : List (Action (Fin 5) ℕ) :=
  List.flatten [[.electionTimeout 0 (1 / 5) 1], handled 0 1, handled 1 1,
    [.electionEnds 0 [1, 2], .becameLeader 0, .propose 0 11, .propose 0 12, .propose 0 13,
      .deliver 6 2],
    [.electionTimeout 2 (1 / 5) 3], handled 9 3, handled 10 3,
    [.electionEnds 2 [3, 4], .becameLeader 2, .propose 2 20], handled 11 4]

/-- Node 0 leads again, in term 3, books the late answer and commits with node 3 alone. -/
def commitOnStaleSuccess : List (Action (Fin 5) ℕ) :=
  List.flatten [[.electionTimeout 0 (1 / 5) 5], handled 14 5, handled 15 5,
    [.electionEnds 0 [3, 4], .becameLeader 0, .propose 0 31, .propose 0 32, .reply 3, .noReply 7,
      .noReply 7, .deliver 20 6, .reply 7, .noReply 7],
    [.heartbeat 6, .noReply 6, .noReply 6, .deliver 24 6, .reply 6, .noReply 6, .resume 6,
      .resume 6, .resume 6]]

/-- Node 2 wins term 4 without those entries and commits others in their place. -/
def commitInTheirPlace : List (Action (Fin 5) ℕ) :=
  List.flatten [handled 13 7, [.electionTimeout 2 (1 / 5) 8], handled 27 8, handled 29 8,
    [.electionEnds 2 [1, 4], .becameLeader 2, .propose 2 40, .noReply 10, .deliver 31 9,
      .reply 10, .noReply 10, .deliver 33 9, .reply 10],
    [.heartbeat 9, .noReply 9, .deliver 35 9, .reply 9, .noReply 9, .deliver 37 9, .reply 9,
      .resume 9, .resume 9]]

def staleSuccessRun : List (Action (Fin 5) ℕ) :=
  waitingForAnswer ++ (commitOnStaleSuccess ++ commitInTheirPlace)

/-- Node 0 takes over the log of term 4, shorter than its commit index, and wins term 5. -/
def overcommitRun : List (Action (Fin 5) ℕ) :=
  staleSuccessRun ++ List.flatten [handled 34 10, [.electionTimeout 0 (1 / 5) 11], handled 40 11,
    handled 41 11, [.electionEnds 0 [3, 4], .becameLeader 0, .heartbeat 11]]

/-! ## Election safety -/

/-- A term that a node has won is not the term of a later leadership of it. -/
theorem currentTerm_ne_of_elected {acts : List (Action N C)} {s s' : Cluster N C}
    {A : History N C} (hA : Consistent LogEntry.term cfg.quorums A) (h : Coupled cfg clean s A)
    {i : N} (hi : i ∈ cfg.nodes) {T : ℕ} {Q : Finset N} (hT : A.elected T = some (i, Q))
    (hne : (s.nodes i).state = .leader → (s.nodes i).persistent.currentTerm ≠ T)
    (hacts : s.EachStep cfg (Followed clean) acts) (hrun : s.run cfg acts = some s')
    (hs : (s'.nodes i).state = .leader) : (s'.nodes i).persistent.currentTerm ≠ T := by
  induction acts generalizing s A with
  | nil =>
    obtain rfl := Option.some.inj hrun
    exact hne hs
  | cons a rest ih =>
    obtain ⟨t, ht, hrest⟩ := Transition.run_cons hrun
    obtain ⟨A', g, hA', h'⟩ := Simulated.step h hA hacts.1.1 hacts.1.2 ht
    have hrole := roleStep_step ht i
    refine ih hA' h' (g.elected hT) (fun hlead => ?_) (hacts.tail ht) hrest
    by_cases hl : (s.nodes i).state = .leader
    · rw [hrole.currentTerm_of_leader hl hlead]
      exact hne hl
    · obtain ⟨hcand, hterm⟩ := hrole.candidate_of_new_leader hl hlead
      obtain ⟨-, -, hnot⟩ := (h.nodes i hi).stands hcand
      rw [hterm, (h.nodes i hi).term_eq]
      rintro rfl
      exact hnot Q hT

/-- No two nodes lead one term, at whatever moments, and no node leads a term twice. -/
theorem election_safety {before middle after : List (Action N C)} {s t s' : Cluster N C}
    (hsave : ∀ a ∈ before ++ (middle ++ after), a.savesWhole = true)
    (hs : (boot start).run cfg before = some s) (ht : s.run cfg middle = some t)
    (hs' : t.run cfg after = some s') :
    (∀ i ∈ cfg.nodes, ∀ j ∈ cfg.nodes, (s.nodes i).state = .leader →
      (s'.nodes j).state = .leader →
      (s.nodes i).persistent.currentTerm = (s'.nodes j).persistent.currentTerm → i = j) ∧
    ∀ i ∈ cfg.nodes, (s.nodes i).state = .leader → (t.nodes i).state ≠ .leader →
      (s'.nodes i).state = .leader →
      (s'.nodes i).persistent.currentTerm ≠ (s.nodes i).persistent.currentTerm := by
  have hacts : (boot start).EachStep cfg (Followed False) (before ++ (middle ++ after)) :=
    followed_of_savesWhole hsave
  obtain ⟨hbefore, hrest⟩ := Transition.EachStep.append hacts
  obtain ⟨hmiddle, hafter⟩ := Transition.EachStep.append (hrest s hs)
  obtain ⟨A, hA, h⟩ := Simulated.boot hbefore hs
  obtain ⟨B, g, hB, ht'⟩ := Simulated.run hA h hmiddle ht
  obtain ⟨A', g', hA', h'⟩ := Simulated.run hB ht' (hafter t ht) hs'
  refine ⟨fun i hi j hj hli hlj hterm => ?_, fun i hi hli hlt hli' => ?_⟩
  · obtain ⟨Q, hQ, -⟩ := (h.nodes i hi).leads hli
    obtain ⟨Q', hQ', -⟩ := (h'.nodes j hj).leads hlj
    rw [(h.nodes i hi).term_eq, (h'.nodes j hj).term_eq] at hterm
    have := g'.elected (g.elected hQ)
    rw [hterm, hQ'] at this
    exact (Prod.mk.inj (Option.some.inj this)).1.symm
  · obtain ⟨Q, hQ, -⟩ := (h.nodes i hi).leads hli
    rw [(h.nodes i hi).term_eq]
    exact currentTerm_ne_of_elected hB ht' hi (g.elected hQ) (fun hl => absurd hl hlt)
      (hafter t ht) hs' hli'

/-- Node 0 wins term 1, crashes, and wins term 2 after its restart. -/
theorem election_safety_restart :
    ∃ s t s' : Cluster (Fin 3) ℕ,
      (s.nodes 0).state = .leader ∧ (t.nodes 0).state ≠ .leader ∧ (s'.nodes 0).state = .leader ∧
      (s'.nodes 0).persistent.currentTerm ≠ (s.nodes 0).persistent.currentTerm := by
  have hrun : ((boot fun _ => 0 : Cluster (Fin 3) ℕ).run threeNodes electionOfZero).any
      (fun s => decide ((s.nodes 0).state = .leader) && (s.run threeNodes [.crash 0 2]).any
        (fun t => decide ((t.nodes 0).state ≠ .leader) && (t.run threeNodes reelectionOfZero).any
          fun s' => decide ((s'.nodes 0).state = .leader))) = true := by
    decide +kernel
  obtain ⟨s, hs, hrest⟩ := (Option.any_eq_true _ _).mp hrun
  obtain ⟨hl, hrest⟩ := Bool.and_eq_true_iff.mp hrest
  obtain ⟨t, ht, hrest⟩ := (Option.any_eq_true _ _).mp hrest
  obtain ⟨hl', hrest⟩ := Bool.and_eq_true_iff.mp hrest
  obtain ⟨s', hs', hl''⟩ := (Option.any_eq_true _ _).mp hrest
  exact ⟨s, t, s', of_decide_eq_true hl, of_decide_eq_true hl', of_decide_eq_true hl'',
    (election_safety (by decide) hs ht hs').2 0 (by decide) (of_decide_eq_true hl)
      (of_decide_eq_true hl') (of_decide_eq_true hl'')⟩

/-! ## Log matching -/

/-- While a node stays leader its term stays. -/
theorem currentTerm_of_stays_leader {acts : List (Action N C)} {s s' : Cluster N C} {i : N}
    (hstays : s.EachStep cfg (fun t _ => (t.nodes i).state = .leader) acts)
    (hrun : s.run cfg acts = some s') (hs : (s'.nodes i).state = .leader) :
    (s.nodes i).state = .leader ∧
      (s'.nodes i).persistent.currentTerm = (s.nodes i).persistent.currentTerm := by
  induction acts generalizing s with
  | nil =>
    obtain rfl := Option.some.inj hrun
    exact ⟨hs, rfl⟩
  | cons a rest ih =>
    obtain ⟨t, ht, hrest⟩ := Transition.run_cons hrun
    obtain ⟨hlead, hterm⟩ := ih (hstays.tail ht) hrest
    exact ⟨hstays.1, hterm.trans ((roleStep_step ht i).currentTerm_of_leader hstays.1 hlead)⟩

/-- The commit index an AppendEntries carries lies within what it lets the follower check. -/
def commitWithinEntries (r : Rpc N C) : Bool :=
  match r.message.payload with
  | .appendEntries _ prevLogIndex _ entries leaderCommit =>
    leaderCommit ≤ prevLogIndex + entries.length
  | .requestVote .. => true

/-- Log matching, leader append-only and the provenance of AppendEntries hold in every run whose
    crashes spare `_save_state`; the bound on `leader_commit` if no stale success is booked. -/
theorem log_matching {before after : List (Action N C)} {s s' : Cluster N C}
    (hsave : ∀ a ∈ before ++ after, a.savesWhole = true)
    (hs : (boot start).run cfg before = some s) (hs' : s.run cfg after = some s') :
    (∀ i ∈ cfg.nodes, Indexed (s'.nodes i).persistent.log ∧
      (s'.nodes i).getLastLogIndex = (s'.nodes i).persistent.log.length) ∧
    (∀ i ∈ cfg.nodes, ∀ j ∈ cfg.nodes, ∀ (p q : ℕ) (e e' : LogEntry C),
      (s'.nodes i).persistent.log[p]? = some e → (s'.nodes j).persistent.log[q]? = some e' →
      e.index = e'.index → e.term = e'.term →
      (s'.nodes i).persistent.log.take e.index = (s'.nodes j).persistent.log.take e.index) ∧
    (∀ i ∈ cfg.nodes, s.EachStep cfg (fun t _ => (t.nodes i).state = .leader) after →
      (s'.nodes i).state = .leader →
      (s.nodes i).persistent.log <+: (s'.nodes i).persistent.log) ∧
    (∀ a s'', s'.step cfg a = some s'' → SentByLeader s' s'') ∧
    ((boot start).EachStep cfg (fun t a => t.staleSuccess a = false) (before ++ after) →
      ∀ r ∈ s'.rpcs, commitWithinEntries r = true) := by
  obtain ⟨A, A', hA, h, g, hA', h'⟩ := simulated_twice (followed_of_savesWhole hsave) hs hs'
  refine ⟨fun i hi => ?_, ?_, fun i hi hstays hl => ?_, ?_, fun hclean r hr => ?_⟩
  · have hn := h'.nodes i hi
    exact ⟨hn.indexed, RaftNode.getLastLogIndex_eq hn.indexed⟩
  · intro i hi j hj p q e e' he he' hidx hterm
    have hni := h'.nodes i hi
    have hnj := h'.nodes j hj
    have hp := hni.indexed p e he
    have hq := hnj.indexed q e' he'
    have hpq : q = p := by omega
    subst hpq
    rw [hp]
    rw [hni.log_eq] at he ⊢
    rw [hnj.log_eq] at he' ⊢
    exact (hA'.logs i).take_eq (hA'.logs j) he he' hterm
  · obtain ⟨hl0, hterm⟩ := currentTerm_of_stays_leader hstays hs' hl
    obtain ⟨Q, hQ, hL⟩ := (h.nodes i hi).leads hl0
    obtain ⟨Q', hQ', hL'⟩ := (h'.nodes i hi).leads hl
    rw [(h.nodes i hi).term_eq, (h'.nodes i hi).term_eq] at hterm
    rw [(h.nodes i hi).log_eq, (h'.nodes i hi).log_eq, ← hL, ← hL', hterm]
    exact g.leaderLog hQ
  · intro a s'' hstep
    exact sentByLeader_step (fun t ht => (h'.nodes _ (h'.tasks t ht).node_mem).leaderState) hstep
  · have hacts : (boot start).EachStep cfg (Followed True) (before ++ after) :=
      hclean.imp fun t a ha hstale => ⟨hsave a ha, fun _ => hstale⟩
    obtain ⟨-, B, -, -, -, -, hB⟩ := simulated_twice hacts hs hs'
    have hreq := (hB.rpcs r hr).request
    unfold commitWithinEntries
    cases hpay : r.message.payload with
    | requestVote => rfl
    | appendEntries leaderId prev prevTerm entries leaderCommit =>
      rw [hpay] at hreq
      simpa using (hreq.2.2 trivial).1

theorem log_matching_replication :
    ∃ s s' : Cluster (Fin 3) ℕ, (s'.nodes 1).persistent.log ≠ [] ∧
      (s.nodes 0).persistent.log <+: (s'.nodes 0).persistent.log ∧
      ∀ r ∈ s'.rpcs, commitWithinEntries r = true := by
  have hrun : ((boot fun _ => 0 : Cluster (Fin 3) ℕ).run threeNodes electionOfZero).any
      (fun s => decide (s.EachStep threeNodes (fun t _ => (t.nodes 0).state = .leader)
          replication) && (s.run threeNodes replication).any fun s' =>
        decide ((s'.nodes 1).persistent.log ≠ []) &&
          decide ((s'.nodes 0).state = .leader)) = true := by
    decide +kernel
  obtain ⟨s, hs, hp⟩ := (Option.any_eq_true _ _).mp hrun
  obtain ⟨hstays, hrest⟩ := Bool.and_eq_true_iff.mp hp
  obtain ⟨s', hs', hp'⟩ := (Option.any_eq_true _ _).mp hrest
  obtain ⟨hlog, hlead⟩ := Bool.and_eq_true_iff.mp hp'
  have hfresh : (boot fun _ => 0 : Cluster (Fin 3) ℕ).EachStep threeNodes
      (fun t a => t.staleSuccess a = false) (electionOfZero ++ replication) := by
    decide +kernel
  obtain ⟨-, -, hextends, -, hwithin⟩ := log_matching (by decide) hs hs'
  exact ⟨s, s', of_decide_eq_true hlog, hextends 0 (by decide) (of_decide_eq_true hstays)
    (of_decide_eq_true hlead), hwithin hfresh⟩

/-- A node that booked a stale success sends a commit index beyond its own log. -/
theorem stale_success_overcommits : ∃ s, (boot fun _ => 0).run fiveNodes overcommitRun = some s ∧
    (∀ a ∈ overcommitRun, a.crashFree = true) ∧ ∃ r ∈ s.rpcs, commitWithinEntries r = false := by
  have hrun : ((boot fun _ => 0 : Cluster (Fin 5) ℕ).run fiveNodes overcommitRun).any
      (fun s => s.rpcs.any fun r => !commitWithinEntries r) = true := by
    decide +kernel
  obtain ⟨s, hs, hany⟩ := (Option.any_eq_true _ _).mp hrun
  obtain ⟨r, hr, hnot⟩ := List.any_eq_true.mp hany
  exact ⟨s, hs, by decide, r, hr, by simpa using hnot⟩

/-! ## State machine safety -/

/-- If no stale success is booked, all nodes apply the same commands in the same order. -/
theorem state_machine_safety {acts : List (Action N C)} {s : Cluster N C}
    (hcrash : ∀ a ∈ acts, a.crashFree = true)
    (hfresh : (boot start).EachStep cfg (fun t a => t.staleSuccess a = false) acts)
    (hs : (boot start).run cfg acts = some s) :
    (∀ i ∈ cfg.nodes, ∀ j ∈ cfg.nodes, ∀ k c d, (k, c) ∈ (s.nodes i).applied →
      (k, d) ∈ (s.nodes j).applied → c = d) ∧
    ∀ i ∈ cfg.nodes, (s.nodes i).applied.map Prod.fst =
      List.range' 1 (s.nodes i).volatile.lastApplied := by
  have hacts : (boot start).EachStep cfg (Followed True) acts :=
    hfresh.imp fun t a ha hstale => ⟨Action.savesWhole_of_crashFree (hcrash a ha), fun _ => hstale⟩
  obtain ⟨A, hA, h⟩ := Simulated.boot hacts hs
  refine ⟨fun i hi j hj k c d hc hd => ?_, fun i hi => ((h.nodes i hi).order trivial).1⟩
  exact ((h.nodes i hi).calls trivial _ hc).unique ((h.nodes j hj).calls trivial _ hd) hA

theorem state_machine_safety_replication :
    ∃ s : Cluster (Fin 3) ℕ, (1, 7) ∈ (s.nodes 0).applied ∧ (s.nodes 1).applied ≠ [] ∧
      ∀ d, (1, d) ∈ (s.nodes 1).applied → 7 = d := by
  have hrun : ((boot fun _ => 0 : Cluster (Fin 3) ℕ).run threeNodes
      (electionOfZero ++ replication)).any
      (fun s => decide ((1, 7) ∈ (s.nodes 0).applied) && decide ((s.nodes 1).applied ≠ [])) =
      true := by
    decide +kernel
  obtain ⟨s, hs, hp⟩ := (Option.any_eq_true _ _).mp hrun
  obtain ⟨h0, h1⟩ := Bool.and_eq_true_iff.mp hp
  have hfresh : (boot fun _ => 0 : Cluster (Fin 3) ℕ).EachStep threeNodes
      (fun t a => t.staleSuccess a = false) (electionOfZero ++ replication) := by
    decide +kernel
  exact ⟨s, of_decide_eq_true h0, of_decide_eq_true h1, fun d hd =>
    (state_machine_safety (by decide) hfresh hs).1 0 (by decide) 1 (by decide) 1 7 d
      (of_decide_eq_true h0) hd⟩

/-- Two nodes apply different commands at index 2. -/
theorem stale_success_diverges :
    ∃ s, (boot fun _ => 0).run fiveNodes staleSuccessRun = some s ∧
      (∀ a ∈ staleSuccessRun, a.crashFree = true) ∧
      (2, 31) ∈ (s.nodes 0).applied ∧ (2, 40) ∈ (s.nodes 2).applied := by
  have hrun : ((boot fun _ => 0 : Cluster (Fin 5) ℕ).run fiveNodes staleSuccessRun).any
      (fun s => decide ((2, 31) ∈ (s.nodes 0).applied) &&
        decide ((2, 40) ∈ (s.nodes 2).applied)) = true := by
    decide +kernel
  obtain ⟨s, hs, hp⟩ := (Option.any_eq_true _ _).mp hrun
  obtain ⟨h0, h2⟩ := Bool.and_eq_true_iff.mp hp
  exact ⟨s, hs, by decide, of_decide_eq_true h0, of_decide_eq_true h2⟩

end Pynchronize.Cluster
