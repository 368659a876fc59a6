import Pynchronize.Raft.Safety
import Pynchronize.Raft.Terms

/-!
# Votes across crashes

A node votes once in a term and never falls back behind a term it has answered
in, in exactly the runs in which no node that has answered a RequestVote
crashes inside `_save_state`: the truncated file brings such a node back in
term 0 without a vote.
-/

namespace Pynchronize

open Lib

variable {N C : Type*}

/-- The candidate of an answered RequestVote, the term of the answer, and `vote_granted`. -/
def Rpc.voteAnswer (r : Rpc N C) : Option (N × ℕ × Bool) :=
  match r.message.payload, r.stage with
  | .requestVote candidateId _ _, .answered ⟨_, term, .requestVoteResponse granted⟩ =>
    some (candidateId, term, granted)
  | _, _ => none

/-- `n'` is in no earlier term than `n`, and keeps its vote while the term lasts. -/
structure RaftNode.KeepsVote (n n' : RaftNode N C) : Prop where
  currentTerm : n.persistent.currentTerm ≤ n'.persistent.currentTerm
  votedFor : n'.persistent.currentTerm = n.persistent.currentTerm →
    ∀ c, n.persistent.votedFor = some c → n'.persistent.votedFor = some c

namespace Cluster

open RaftNode (KeepsVote)

/-- No node has granted its vote to two candidates in one term, and every node is at least in the
    terms it has answered candidates in. -/
structure VotesOnce (s : Cluster N C) : Prop where
  once : ∀ r ∈ s.rpcs, ∀ r' ∈ s.rpcs, ∀ c c' t t', r.voteAnswer = some (c, t, true) →
    r'.voteAnswer = some (c', t', true) → r.dst = r'.dst → r.message.term = r'.message.term → c = c'
  term : ∀ r ∈ s.rpcs, ∀ c t granted, r.voteAnswer = some (c, t, granted) →
    t ≤ (s.nodes r.dst).persistent.currentTerm

/-- A crash inside `_save_state` hits only a node that has answered no RequestVote. -/
def SparesVoters (s : Cluster N C) : Action N C → Prop
  | .crashSaving i _ => ∀ r ∈ s.rpcs, r.dst = i → r.voteAnswer.isNone
  | _ => True

/-- What the votes so far and the nodes have to do with each other. -/
structure Ballots (s : Cluster N C) : Prop where
  inPlace : s.InPlace
  saved : ∀ i, (s.nodes i).Saved
  requests : ∀ r ∈ s.rpcs, ∀ c i t, r.message.payload = .requestVote c i t → 0 < r.message.term
  pending : ∀ r ∈ s.rpcs, r.stage = .steppingDown →
    r.message.term ≤ (s.nodes r.dst).persistent.currentTerm
  answers : ∀ r ∈ s.rpcs, ∀ c t granted, r.voteAnswer = some (c, t, granted) →
    0 < t ∧ t ≤ (s.nodes r.dst).persistent.currentTerm
  granted : ∀ r ∈ s.rpcs, ∀ c t, r.voteAnswer = some (c, t, true) → r.message.term = t ∧
    ((s.nodes r.dst).persistent.currentTerm = t →
      (s.nodes r.dst).persistent.votedFor = some c)
  once : s.VotesOnce

variable [DecidableEq N] {cfg : Config N} {s s' : Cluster N C}

instance (s : Cluster N C) (a : Action N C) : Decidable (s.SparesVoters a) :=
  match a with
  | .crashSaving .. => (inferInstance : Decidable (∀ r ∈ s.rpcs, _ → _))
  | .electionTimeout .. | .electionEnds .. | .becameLeader _ | .propose .. | .heartbeat _
  | .reply _ | .noReply _ | .resume _ | .raise _ | .deliver .. | .resumeHandler ..
  | .raiseHandler _ | .crash .. => isTrue trivial

theorem TermStep.keepsVote {a : Action N C} {i : N} {n' : RaftNode N C} (h : TermStep s a i n')
    (hsaved : (s.nodes i).Saved) :
    KeepsVote (s.nodes i) n' ∨ ∃ now, a = .crashSaving i now := by
  have later : ∀ {n' : RaftNode N C},
      (s.nodes i).persistent.currentTerm < n'.persistent.currentTerm →
      KeepsVote (s.nodes i) n' :=
    fun hlt => ⟨hlt.le, fun heq => absurd heq hlt.ne'⟩
  cases h with
  | stays h => exact Or.inl ⟨h.currentTerm.ge, fun _ c hc => h.votedFor.trans hc⟩
  | stands _ heq =>
    rw [heq]
    exact Or.inl (later (Nat.lt_succ_self _))
  | wins ht hv => exact Or.inl ⟨ht.ge, fun _ c hc => hv.trans hc⟩
  | votes hfree heq =>
    rw [heq]
    refine Or.inl ⟨le_rfl, fun _ c hc => ?_⟩
    rcases hfree with hnone | hsome
    · rw [hc] at hnone
      cases hnone
    · exact hsome.symm.trans hc
  | accepts _ _ _ _ _ h => exact Or.inl ⟨h.currentTerm.ge, fun _ c hc => h.votedFor.trans hc⟩
  | stepsDownOnRequest _ _ _ _ hlt heq =>
    rw [heq]
    exact Or.inl (later hlt)
  | stepsDownOnResponse _ _ _ _ hlt heq =>
    rw [heq]
    exact Or.inl (later hlt)
  | @restarts file now heq hfile =>
    rcases hfile with rfl | ha
    · have hpersistent : n'.persistent = (s.nodes i).persistent := by
        rw [heq]
        exact hsaved
      exact Or.inl ⟨by rw [hpersistent], fun _ c hc => by rw [hpersistent]; exact hc⟩
    · exact Or.inr ⟨now, ha⟩

omit [DecidableEq N] in
theorem voteAnswer_eq_some {r : Rpc N C} {c : N} {t : ℕ} {granted : Bool}
    (h : r.voteAnswer = some (c, t, granted)) :
    (∃ i u, r.message.payload = .requestVote c i u) ∧
      ∃ sender, r.stage = .answered ⟨sender, t, .requestVoteResponse granted⟩ := by
  unfold Rpc.voteAnswer at h
  split at h
  · rename_i hpay hst
    obtain ⟨rfl, rfl, rfl⟩ := by simpa using h
    exact ⟨⟨_, _, hpay⟩, _, hst⟩
  · cases h

omit [DecidableEq N] in
/-- A vote answer of `s'` was given before, or is given in this step by a node that is still in
    the term of the answer. -/
theorem RpcStep.answer {r : Rpc N C} {c : N} {t : ℕ} {granted : Bool} (h : RpcStep s s' r)
    (hr : r.voteAnswer = some (c, t, granted)) :
    r ∈ s.rpcs ∨ (∃ r₀ ∈ s.rpcs, (r₀.stage = .steppingDown ∨
        r.message.term ≤ (s.nodes r.dst).persistent.currentTerm) ∧ r₀.message = r.message ∧
        r₀.dst = r.dst) ∧
      (s.nodes r.dst).persistent.currentTerm = t ∧ (s'.nodes r.dst).persistent.currentTerm = t ∧
      (granted = true → t ≤ r.message.term ∧ (s'.nodes r.dst).persistent.votedFor = some c) := by
  obtain ⟨⟨i, u, hpay⟩, sender, hst⟩ := voteAnswer_eq_some hr
  cases h with
  | old h => exact Or.inl h
  | sent h =>
    rw [h.stage] at hst
    cases hst
  | stepsDown _ _ heq =>
    rw [heq] at hst
    cases hst
  | answers hr₀ hstage hpay₀ hterm hgranted heq =>
    subst heq
    obtain ⟨-, rfl, hg⟩ := by simpa using hst
    rw [hpay] at hpay₀
    obtain ⟨rfl, -⟩ := Request.requestVote.inj hpay₀
    refine Or.inr ⟨⟨_, hr₀, hstage, rfl, rfl⟩, rfl, hterm, ?_⟩
    rintro rfl
    exact ⟨(hgranted hg).1, (hgranted hg).2.1⟩
  | goesOn _ _ hans heq =>
    subst heq
    obtain ⟨success, hs⟩ := hans _ hst
    cases hs

/-! ## One step -/

theorem stage_dropHandler {i : N} {r : Rpc N C} (h : (dropHandler i r).stage = .steppingDown) :
    r.stage = .steppingDown ∧ r.dst ≠ i := by
  unfold dropHandler at h
  split at h
  · rename_i hst
    split at h
    · cases h
    · rename_i hne
      exact ⟨hst, hne⟩
  · split at h
    · cases h
    · exact ⟨h, by rintro rfl; rename_i hst _; rw [hst] at h; cases h⟩
  · rename_i hst _
    exact absurd h hst

theorem dst_dropHandler (i : N) (r : Rpc N C) : (dropHandler i r).dst = r.dst :=
  congrArg (fun request : N × N × Message N (Request N C) => request.2.1) (dropHandler_request i r)

/-- An RPC whose handler is suspended in `_step_down` was sent in no later term than its receiver
    is in. -/
theorem Ballots.pending_step {a : Action N C} (h : Ballots s) (hstep : s.step cfg a = some s')
    {r : Rpc N C} (hr : r ∈ s'.rpcs) (hst : r.stage = .steppingDown) :
    r.message.term ≤ (s'.nodes r.dst).persistent.currentTerm := by
  cases rpcStep_step hstep hr with
  | old hold =>
    have hle := h.pending r hold hst
    rcases (termStep_step hstep r.dst).keepsVote (h.saved r.dst) with hk | ⟨now, rfl⟩
    · exact hle.trans hk.currentTerm
    · cases stepped hstep with
      | crashSaving =>
        obtain ⟨r₀, -, heq⟩ := List.mem_map.mp hr
        rw [← heq] at hst
        exact absurd (by rw [← dst_dropHandler r.dst r₀, heq]) (stage_dropHandler hst).2
  | sent hsent =>
    rw [hsent.stage] at hst
    cases hst
  | stepsDown _ hterm heq =>
    subst heq
    exact hterm.ge
  | answers _ _ _ _ _ heq =>
    subst heq
    cases hst
  | goesOn _ hne _ heq =>
    subst heq
    exact absurd hst hne

theorem Ballots.requests_step {a : Action N C} (h : Ballots s) (hstep : s.step cfg a = some s')
    {r : Rpc N C} (hr : r ∈ s'.rpcs) {c : N} {i t : ℕ}
    (hpay : r.message.payload = .requestVote c i t) : 0 < r.message.term := by
  cases rpcStep_step hstep hr with
  | old hold => exact h.requests r hold c i t hpay
  | sent hsent =>
    have := hsent.payload
    rw [hpay] at this
    exact this.2
  | @stepsDown r₀ hr₀ _ heq =>
    subst heq
    exact h.requests r₀ hr₀ c i t hpay
  | @answers r₀ _ _ _ _ hr₀ _ _ _ _ heq =>
    subst heq
    exact h.requests r₀ hr₀ c i t hpay
  | @goesOn r₀ _ hr₀ _ _ heq =>
    subst heq
    exact h.requests r₀ hr₀ c i t hpay

/-- A node that has answered keeps its term and its vote. -/
theorem Ballots.keepsVote {a : Action N C} (h : Ballots s) (hspares : s.SparesVoters a)
    (hstep : s.step cfg a = some s') {r : Rpc N C} (hr : r ∈ s.rpcs) (hans : r.voteAnswer ≠ none) :
    KeepsVote (s.nodes r.dst) (s'.nodes r.dst) := by
  rcases (termStep_step hstep r.dst).keepsVote (h.saved r.dst) with hk | ⟨now, rfl⟩
  · exact hk
  · exact absurd (Option.isNone_iff_eq_none.mp (hspares r hr rfl)) hans

theorem Ballots.answers_step {a : Action N C} (h : Ballots s) (hspares : s.SparesVoters a)
    (hstep : s.step cfg a = some s') {r : Rpc N C} (hr : r ∈ s'.rpcs) {c : N} {t : ℕ}
    {granted : Bool} (hans : r.voteAnswer = some (c, t, granted)) :
    0 < t ∧ t ≤ (s'.nodes r.dst).persistent.currentTerm := by
  rcases (rpcStep_step hstep hr).answer hans with hold | ⟨⟨r₀, hr₀, hst, hm, hd⟩, hct, hct', -⟩
  · obtain ⟨hpos, hle⟩ := h.answers r hold c t granted hans
    have hk := h.keepsVote hspares hstep hold (by rw [hans]; exact fun h => by cases h)
    exact ⟨hpos, hle.trans hk.currentTerm⟩
  · refine ⟨?_, hct'.ge⟩
    obtain ⟨⟨i, u, hpay⟩, -⟩ := voteAnswer_eq_some hans
    have hpos := h.requests r₀ hr₀ c i u (by rw [hm]; exact hpay)
    have hle : r₀.message.term ≤ (s.nodes r.dst).persistent.currentTerm := by
      rcases hst with hst | hle
      · rw [← hd]
        exact h.pending r₀ hr₀ hst
      · rw [hm]
        exact hle
    omega

theorem Ballots.granted_step {a : Action N C} (h : Ballots s) (hspares : s.SparesVoters a)
    (hstep : s.step cfg a = some s') {r : Rpc N C} (hr : r ∈ s'.rpcs) {c : N} {t : ℕ}
    (hans : r.voteAnswer = some (c, t, true)) : r.message.term = t ∧
      ((s'.nodes r.dst).persistent.currentTerm = t →
        (s'.nodes r.dst).persistent.votedFor = some c) := by
  rcases (rpcStep_step hstep hr).answer hans with hold | ⟨⟨r₀, hr₀, hst, hm, hd⟩, hct, -, hg⟩
  · obtain ⟨hterm, hvote⟩ := h.granted r hold c t hans
    have hk := h.keepsVote hspares hstep hold (by rw [hans]; exact fun h => by cases h)
    refine ⟨hterm, fun hct => ?_⟩
    have hle := (h.answers r hold c t true hans).2
    have hge := hk.currentTerm
    have heq : (s.nodes r.dst).persistent.currentTerm = t := by omega
    exact hk.votedFor (hct.trans heq.symm) c (hvote heq)
  · obtain ⟨hge, hvote⟩ := hg rfl
    have hle : r.message.term ≤ (s.nodes r.dst).persistent.currentTerm := by
      rcases hst with hst | hle
      · rw [← hd, ← hm]
        exact h.pending r₀ hr₀ hst
      · exact hle
    exact ⟨by omega, fun _ => hvote⟩

theorem Ballots.once_step {a : Action N C} (h : Ballots s) (hspares : s.SparesVoters a)
    (hstep : s.step cfg a = some s') {r r' : Rpc N C} (hr : r ∈ s'.rpcs) (hr' : r' ∈ s'.rpcs)
    {c c' : N} {t t' : ℕ} (hans : r.voteAnswer = some (c, t, true))
    (hans' : r'.voteAnswer = some (c', t', true)) (hdst : r.dst = r'.dst)
    (hterm : r.message.term = r'.message.term) : c = c' := by
  obtain ⟨ht, hvote⟩ := h.granted_step hspares hstep hr hans
  obtain ⟨ht', hvote'⟩ := h.granted_step hspares hstep hr' hans'
  -- a vote of this step is the vote that the node now holds for the term of both answers
  have hfresh : (s'.nodes r.dst).persistent.currentTerm = t → c = c' := by
    intro hct
    have hc := hvote hct
    rw [hdst] at hct hc
    exact Option.some.inj (hc.symm.trans (hvote' (by omega)))
  rcases (rpcStep_step hstep hr).answer hans with hold | ⟨-, -, hct, -⟩
  · rcases (rpcStep_step hstep hr').answer hans' with hold' | ⟨-, -, hct, -⟩
    · exact h.once.once r hold r' hold' c c' t t' hans hans' hdst hterm
    · rw [← hdst] at hct
      exact hfresh (by omega)
  · exact hfresh hct

theorem Ballots.step {a : Action N C} (h : Ballots s) (hspares : s.SparesVoters a)
    (hstep : s.step cfg a = some s') : Ballots s' where
  inPlace := h.inPlace.step h.saved hstep
  saved := saved_step h.saved hstep
  requests _ hr _ _ _ hpay := h.requests_step hstep hr hpay
  pending _ hr hst := h.pending_step hstep hr hst
  answers _ hr _ _ _ hans := h.answers_step hspares hstep hr hans
  granted _ hr _ _ hans := h.granted_step hspares hstep hr hans
  once :=
    { once := fun _ hr _ hr' _ _ _ _ hans hans' hdst hterm =>
        h.once_step hspares hstep hr hr' hans hans' hdst hterm
      term := fun _ hr _ _ _ hans => (h.answers_step hspares hstep hr hans).2 }

/-- The crash of a voter inside `_save_state` takes it behind the term of its answer. -/
theorem Ballots.spares {a : Action N C} (h : Ballots s) (hstep : s.step cfg a = some s')
    (h' : s'.VotesOnce) : s.SparesVoters a := by
  cases a with
  | crashSaving i now =>
    rintro r hr rfl
    by_contra hne
    obtain ⟨⟨c, t, granted⟩, hans⟩ :=
      Option.ne_none_iff_exists'.mp fun hnone => hne (Option.isNone_iff_eq_none.mpr hnone)
    obtain rfl : s.restart r.dst none now = s' := by
      cases stepped hstep with
      | crashSaving => rfl
    obtain ⟨-, sender, hst⟩ := voteAnswer_eq_some hans
    have hkept : dropHandler r.dst r = r := by
      unfold dropHandler
      rw [hst]
    have hr' : r ∈ (s.restart r.dst none now).rpcs := List.mem_map.mpr ⟨r, hr, hkept⟩
    have hle := h'.term r hr' c t granted hans
    rw [nodes_restart_self] at hle
    have hpos := (h.answers r hr c t granted hans).1
    exact absurd (hpos.trans_le hle) (Nat.lt_irrefl 0)
  | _ => trivial

/-! ## Runs -/

omit [DecidableEq N] in
theorem ballots_boot (start : N → ℚ) : Ballots (boot start : Cluster N C) where
  inPlace p e he := by
    rcases he with ⟨i, hi⟩ | ⟨r, hr, -⟩
    · cases hi
    · cases hr
  saved _ := rfl
  requests _ hr := by cases hr
  pending _ hr := by cases hr
  answers _ hr := by cases hr
  granted _ hr := by cases hr
  once :=
    { once := fun _ hr => by cases hr
      term := fun _ hr => by cases hr }

theorem spares_of_votesOnce {acts : List (Action N C)} {s u : Cluster N C} (h : Ballots s)
    (hrun : s.run cfg acts = some u) (hall : ∀ before after t, acts = before ++ after →
      s.run cfg before = some t → t.VotesOnce) : s.EachStep cfg SparesVoters acts := by
  induction acts generalizing s with
  | nil => trivial
  | cons a rest ih =>
    obtain ⟨t, ht, hrest⟩ := Transition.run_cons hrun
    have hone : s.run cfg [a] = some t := by
      show (s.step cfg a).bind _ = _
      rw [ht]
      rfl
    have hspares := h.spares ht (hall [a] rest t rfl hone)
    refine ⟨hspares, ?_⟩
    rw [ht]
    refine ih (h.step hspares ht) hrest fun before after v hsplit hv => ?_
    refine hall (a :: before) after v (by rw [hsplit]; rfl) ?_
    show (s.step cfg a).bind _ = _
    rw [ht]
    exact hv

/-- No node votes twice or falls behind a term it has answered in, in any state of a run, if and
    only if no crash inside `_save_state` hits a node that has answered a RequestVote. -/
theorem votes_once_iff {start : N → ℚ} {acts : List (Action N C)} {u : Cluster N C}
    (hrun : (boot start).run cfg acts = some u) :
    (∀ before after s, acts = before ++ after → (boot start).run cfg before = some s →
      s.VotesOnce) ↔ (boot start).EachStep cfg SparesVoters acts := by
  constructor
  · intro hall
    exact spares_of_votesOnce (ballots_boot start) hrun hall
  · rintro hspares before after s rfl hs
    have hbefore := (Transition.EachStep.append hspares).1
    exact (Transition.run_preserves (fun _ _ _ h ha hstep => h.step ha hstep)
      (ballots_boot start) hbefore hs).once

/-- Node 0 stands for term 1 and gets the vote of node 1. -/
def voteForZero : List (Action (Fin 3) ℕ) := .electionTimeout 0 (1 / 5) 1 :: handled 0 1

/-- Node 1 crashes inside `_save_state` and votes for node 2 in the same term. -/
def voteLost : List (Action (Fin 3) ℕ) :=
  voteForZero ++ .crashSaving 1 2 :: .electionTimeout 2 (1 / 5) 2 :: handled 3 3

/-- A node that only crashes elsewhere, or has not answered yet, keeps its votes. -/
theorem votes_once_of_spared : ∃ u : Cluster (Fin 3) ℕ,
    (boot fun _ => 0).run threeNodes (.crashSaving 1 0 :: (voteForZero ++ [.crash 1 2])) = some u ∧
      (∃ r ∈ u.rpcs, r.voteAnswer = some (0, 1, true)) ∧ u.VotesOnce := by
  have hrun : ((boot fun _ => 0 : Cluster (Fin 3) ℕ).run threeNodes
      (.crashSaving 1 0 :: (voteForZero ++ [.crash 1 2]))).any
      (fun u => u.rpcs.any fun r => decide (r.voteAnswer = some (0, 1, true))) = true := by
    decide +kernel
  have hspares : (boot fun _ => 0 : Cluster (Fin 3) ℕ).EachStep threeNodes SparesVoters
      (.crashSaving 1 0 :: (voteForZero ++ [.crash 1 2])) := by
    decide +kernel
  obtain ⟨u, hu, hany⟩ := (Option.any_eq_true _ _).mp hrun
  obtain ⟨r, hr, hans⟩ := List.any_eq_true.mp hany
  exact ⟨u, hu, ⟨r, hr, of_decide_eq_true hans⟩,
    (votes_once_iff hu).mpr hspares _ [] u (List.append_nil _).symm hu⟩

/-- Node 1 grants its vote in term 1 to node 0 and to node 2. -/
theorem crash_votes_twice : ∃ u : Cluster (Fin 3) ℕ,
    (boot fun _ => 0).run threeNodes voteLost = some u ∧ ¬ u.VotesOnce := by
  have hrun : ((boot fun _ => 0 : Cluster (Fin 3) ℕ).run threeNodes voteLost).any
      (fun u => u.rpcs.any fun r => decide (r.voteAnswer = some (0, 1, true)) &&
        u.rpcs.any fun r' => decide (r'.voteAnswer = some (2, 1, true)) &&
          decide (r.dst = r'.dst ∧ r.message.term = r'.message.term)) = true := by
    decide +kernel
  obtain ⟨u, hu, hany⟩ := (Option.any_eq_true _ _).mp hrun
  obtain ⟨r, hr, hrest⟩ := List.any_eq_true.mp hany
  obtain ⟨hans, hrest⟩ := Bool.and_eq_true_iff.mp hrest
  obtain ⟨r', hr', hrest⟩ := List.any_eq_true.mp hrest
  obtain ⟨hans', heq⟩ := Bool.and_eq_true_iff.mp hrest
  obtain ⟨hdst, hterm⟩ := of_decide_eq_true heq
  refine ⟨u, hu, fun h => ?_⟩
  have := h.once r hr r' hr' 0 2 1 1 (of_decide_eq_true hans) (of_decide_eq_true hans') hdst hterm
  cases this

end Cluster

end Pynchronize
