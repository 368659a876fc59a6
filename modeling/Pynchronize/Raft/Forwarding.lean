import Pynchronize.Raft.Voting

/-!
# Forwarding to the leader

A request is forwarded from node to node along `current_leader`. A node that
follows another one has accepted a later term from it than it ever led itself,
so the forwarding ends, unless a leader has stepped down to a RequestVote or to
an answer: it goes on naming itself.
-/

namespace Pynchronize

open Lib Lib.Replication

variable {N C : Type*}

def Rpc.IsAppend (r : Rpc N C) : Prop :=
  match r.message.payload with
  | .appendEntries .. => True
  | .requestVote .. => False

/-- The action takes up the handler of RPC `j` that is suspended in `_step_down`, or ends it. -/
def Action.endsStepDown (j : ℕ) : Action N C → Bool
  | .resumeHandler j' _ => j' = j
  | .crash .. => true
  | .crashSaving .. => true
  | _ => false

def Stage.isSteppingDown : Stage N → Bool
  | .steppingDown => true
  | _ => false

namespace Cluster

/-- Where `acquire_lock` and `release_lock` send the request on to. -/
def forward (s : Cluster N C) (i : N) : Option N :=
  if (s.nodes i).state = .leader then none else (s.nodes i).currentLeader

/-- The node that a request visits after `n` forwardings from `i`. -/
def hops (s : Cluster N C) : ℕ → N → Option N
  | 0, i => some i
  | n + 1, i => (s.forward i).bind (s.hops n)

/-- No request visits a node twice. -/
def NeverCircles (s : Cluster N C) : Prop :=
  ∀ i m n x, s.hops m i = some x → s.hops n i = some x → m = n

/-- No handler is inside `_step_down`. -/
def Settled (s : Cluster N C) : Prop := ∀ r ∈ s.rpcs, r.stage.isSteppingDown = false

/-- `_on_lose_leadership` does not suspend, so that a handler in `_step_down` is the next to run on
    its node. -/
def Prompt (s : Cluster N C) (a : Action N C) : Prop :=
  ∀ x ∈ s.rpcs.zipIdx, x.1.stage.isSteppingDown = true → s.actor a = some x.1.dst →
    a.endsStepDown x.2 = true

instance [DecidableEq N] (s : Cluster N C) (a : Action N C) : Decidable (s.Prompt a) :=
  inferInstanceAs (Decidable (∀ x ∈ s.rpcs.zipIdx, _ → _ → _))

/-- A leader is about to step down to a RequestVote or to an answer of a later term. An
    AppendEntries of a later term would name another leader at once. -/
def losesLeadership (s : Cluster N C) : Action N C → Bool
  | .deliver j _ => match s.rpcs[j]? with
    | some r => match r.message.payload with
      | .requestVote .. => (s.nodes r.dst).state = .leader ∧
        r.message.term > (s.nodes r.dst).persistent.currentTerm
      | .appendEntries .. => false
    | none => false
  | .reply k => match s.tasks[k]? with
    | some ⟨i, _, .sending _ j _⟩ => match s.answerOf j with
      | some response => (s.nodes i).state = .leader ∧ response.payload.success = false ∧
        response.term > (s.nodes i).persistent.currentTerm
      | none => false
    | _ => false
  | _ => false

/-- The steps under which forwarding ends. -/
def Forwards (s : Cluster N C) (a : Action N C) : Prop :=
  a.savesWhole = true ∧ s.Prompt a ∧ s.losesLeadership a = false

instance [DecidableEq N] (s : Cluster N C) (a : Action N C) : Decidable (s.Forwards a) :=
  inferInstanceAs (Decidable (_ ∧ _ ∧ _))

/-- A leader that names itself no longer leads, and the AppendEntries that made it step down is
    about to give it another leader. -/
def Renames (s : Cluster N C) (i : N) : Prop :=
  ∃ (j : ℕ) (r : Rpc N C), s.rpcs[j]? = some r ∧ r.dst = i ∧ r.stage = .steppingDown ∧ r.IsAppend ∧
    (s.nodes i).persistent.currentTerm ≤ r.message.term

/-- What the known leaders have to do with the AppendEntries sent so far. -/
structure KnownLeaders (s : Cluster N C) : Prop where
  inPlace : s.InPlace
  saved : ∀ i, (s.nodes i).Saved
  leader : ∀ i, (s.nodes i).state = .leader → (s.nodes i).currentLeader = some i
  leaderState : ∀ i, (s.nodes i).leaderState.isSome = true → (s.nodes i).state = .leader
  sender : ∀ r ∈ s.rpcs, ∀ leaderId prev prevTerm entries leaderCommit,
    r.message.payload = .appendEntries leaderId prev prevTerm entries leaderCommit →
    leaderId = r.src ∧ r.message.term ≤ (s.nodes r.src).persistent.currentTerm
  later : ∀ i j, (s.nodes i).currentLeader = some j → j ≠ i → ∃ r ∈ s.rpcs, r.IsAppend ∧
    r.src = j ∧ ∀ r' ∈ s.rpcs, r'.IsAppend → r'.src = i → r'.message.term < r.message.term
  renames : ∀ i, (s.nodes i).state ≠ .leader → (s.nodes i).currentLeader = some i → s.Renames i

/-! ## Following the leaders -/

theorem KnownLeaders.forward_ne {s : Cluster N C} (h : KnownLeaders s) (hsettled : s.Settled)
    {i j : N} (hij : s.forward i = some j) : j ≠ i := by
  rintro rfl
  unfold forward at hij
  split at hij
  · cases hij
  · rename_i hs
    obtain ⟨k, r, hr, -, hst, -⟩ := h.renames j hs hij
    have := hsettled r (List.mem_of_getElem? hr)
    rw [hst] at this
    cases this

theorem KnownLeaders.later_forward {s : Cluster N C} (h : KnownLeaders s) (hsettled : s.Settled)
    {i j : N} (hij : s.forward i = some j) : ∃ r ∈ s.rpcs, r.IsAppend ∧ r.src = j ∧
      ∀ r' ∈ s.rpcs, r'.IsAppend → r'.src = i → r'.message.term < r.message.term := by
  refine h.later i j ?_ (h.forward_ne hsettled hij)
  unfold forward at hij
  split at hij
  · cases hij
  · exact hij

/-- A node at the end of some forwardings has sent AppendEntries of a later term than the node at
    their beginning. -/
theorem KnownLeaders.later_hops {s : Cluster N C} (h : KnownLeaders s) (hsettled : s.Settled)
    {n : ℕ} {i x : N} (hn : s.hops (n + 1) i = some x) : ∃ r ∈ s.rpcs, r.IsAppend ∧ r.src = x ∧
      ∀ r' ∈ s.rpcs, r'.IsAppend → r'.src = i → r'.message.term < r.message.term := by
  induction n generalizing i with
  | zero =>
    obtain ⟨j, hij, hjx⟩ := Option.bind_eq_some_iff.mp hn
    obtain rfl := Option.some.inj hjx
    exact h.later_forward hsettled hij
  | succ n ih =>
    obtain ⟨j, hij, hjx⟩ := Option.bind_eq_some_iff.mp hn
    obtain ⟨r, hr, happ, hsrc, hlt⟩ := h.later_forward hsettled hij
    obtain ⟨r₁, hr₁, happ₁, hsrc₁, hlt₁⟩ := ih hjx
    refine ⟨r₁, hr₁, happ₁, hsrc₁, fun r' hr' happ' hsrc' => ?_⟩
    exact (hlt r' hr' happ' hsrc').trans (hlt₁ r hr happ hsrc)

theorem hops_add (s : Cluster N C) (m n : ℕ) (i : N) :
    s.hops (m + n) i = (s.hops m i).bind (s.hops n) := by
  induction m generalizing i with
  | zero => rw [Nat.zero_add]; rfl
  | succ m ih =>
    rw [Nat.succ_add]
    show (s.forward i).bind _ = ((s.forward i).bind _).bind _
    cases s.forward i with
    | none => rfl
    | some j => exact ih j

theorem KnownLeaders.neverCircles {s : Cluster N C} (h : KnownLeaders s)
    (hsettled : s.Settled) : s.NeverCircles := by
  have hloop : ∀ n x, s.hops (n + 1) x ≠ some x := by
    intro n x hx
    obtain ⟨r, hr, happ, hsrc, hlt⟩ := h.later_hops hsettled hx
    exact Nat.lt_irrefl _ (hlt r hr happ hsrc)
  have hlt : ∀ i m n x, m < n → s.hops m i = some x → s.hops n i ≠ some x := by
    intro i m n x hmn hm hn
    obtain ⟨d, rfl⟩ := Nat.exists_eq_add_of_lt hmn
    rw [Nat.add_assoc, hops_add, hm] at hn
    exact hloop d x hn
  intro i m n x hm hn
  rcases Nat.lt_trichotomy m n with hmn | heq | hnm
  · exact absurd hn (hlt i m n x hmn hm)
  · exact heq
  · exact absurd hm (hlt i n m x hnm hn)

/-! ## Leaders and their AppendEntries -/

variable [DecidableEq N] {cfg : Config N} {s s' : Cluster N C} {A : History N C}

omit [DecidableEq N] in
theorem exists_payload {r : Rpc N C} (h : r.IsAppend) :
    ∃ leaderId prev prevTerm entries leaderCommit,
      r.message.payload = .appendEntries leaderId prev prevTerm entries leaderCommit := by
  unfold Rpc.IsAppend at h
  split at h
  · rename_i hpay
    exact ⟨_, _, _, _, _, hpay⟩
  · exact h.elim

omit [DecidableEq N] in
theorem isAppend_of_request {r r' : Rpc N C} (h : r.request = r'.request) (happ : r'.IsAppend) :
    r.IsAppend ∧ r.src = r'.src ∧ r.dst = r'.dst ∧ r.message = r'.message := by
  obtain ⟨hsrc, hdst, hmessage⟩ : r.src = r'.src ∧ r.dst = r'.dst ∧ r.message = r'.message := by
    simpa [Rpc.request] using h
  refine ⟨?_, hsrc, hdst, hmessage⟩
  unfold Rpc.IsAppend at happ ⊢
  rw [hmessage]
  exact happ

theorem elected_of_isAppend (hc : Coupled cfg False s A) {r : Rpc N C} (hr : r ∈ s.rpcs)
    (happ : r.IsAppend) : ∃ Q, A.elected r.message.term = some (r.src, Q) := by
  obtain ⟨leaderId, prev, prevTerm, entries, leaderCommit, hpay⟩ := exists_payload happ
  have hrequest := (hc.rpcs r hr).request
  rw [hpay] at hrequest
  exact hrequest.1

theorem term_eq_of_accepts (hc : Coupled cfg False s A) {r : Rpc N C} (hr : r ∈ s.rpcs)
    (hst : r.stage = .steppingDown ∨ r.message.term ≤ (s.nodes r.dst).persistent.currentTerm)
    (hle : (s.nodes r.dst).persistent.currentTerm ≤ r.message.term) :
    r.message.term = (s.nodes r.dst).persistent.currentTerm := by
  obtain ⟨hdst, -⟩ := Config.mem_getOtherNodes.mp (hc.rpcs r hr).target
  refine Nat.le_antisymm ?_ hle
  rcases hst with hst | hge
  · rw [(hc.nodes r.dst hdst).term_eq]
    exact (hc.rpcs r hr).stepped hst
  · exact hge

/-- A node that accepts an AppendEntries does not lead its term. -/
theorem not_leader_of_accepts (hc : Coupled cfg False s A) {r : Rpc N C} (hr : r ∈ s.rpcs)
    (happ : r.IsAppend)
    (hterm : r.message.term = (s.nodes r.dst).persistent.currentTerm) :
    (s.nodes r.dst).state ≠ .leader := by
  intro hs
  obtain ⟨hdst, hne⟩ := Config.mem_getOtherNodes.mp (hc.rpcs r hr).target
  obtain ⟨Q, hQ⟩ := elected_of_isAppend hc hr happ
  obtain ⟨Q', hQ', -⟩ := (hc.nodes r.dst hdst).leads hs
  rw [hterm, (hc.nodes r.dst hdst).term_eq, hQ'] at hQ
  exact hne (Prod.mk.inj (Option.some.inj hQ)).1

/-- AppendEntries of one term come from one node. -/
theorem src_eq_of_term_eq (hc : Coupled cfg False s A) {r r' : Rpc N C} (hr : r ∈ s.rpcs)
    (hr' : r' ∈ s.rpcs) (happ : r.IsAppend) (happ' : r'.IsAppend)
    (hterm : r.message.term = r'.message.term) : r.src = r'.src := by
  obtain ⟨Q, hQ⟩ := elected_of_isAppend hc hr happ
  obtain ⟨Q', hQ'⟩ := elected_of_isAppend hc hr' happ'
  rw [hterm, hQ'] at hQ
  exact (Prod.mk.inj (Option.some.inj hQ)).1.symm

/-! ## One step -/

theorem KnownLeaders.term_le {a : Action N C} (h : KnownLeaders s) (hsave : a.savesWhole = true)
    (hstep : s.step cfg a = some s') (i : N) :
    (s.nodes i).persistent.currentTerm ≤ (s'.nodes i).persistent.currentTerm := by
  rcases (termStep_step hstep i).keepsVote (h.saved i) with hk | ⟨now, rfl⟩
  · exact hk.currentTerm
  · cases hsave

theorem KnownLeaders.leader_step {a : Action N C} (h : KnownLeaders s)
    (hc : Coupled cfg False s A) (hstep : s.step cfg a = some s') {i : N}
    (hs : (s'.nodes i).state = .leader) : (s'.nodes i).currentLeader = some i := by
  cases termStep_step hstep i with
  | stays hk => exact hk.currentLeader.trans (h.leader i (hk.leader.mp hs))
  | stands _ heq =>
    rw [heq] at hs
    cases hs
  | wins _ _ _ hl => exact hl
  | votes _ heq =>
    rw [heq] at hs ⊢
    exact h.leader i hs
  | @accepts r _ _ _ _ _ hr hdst hst hpay hle hk =>
    subst hdst
    have happ : r.IsAppend := by
      unfold Rpc.IsAppend
      rw [hpay]
      trivial
    exact absurd (hk.leader.mp hs)
      (not_leader_of_accepts hc hr happ (term_eq_of_accepts hc hr hst hle))
  | stepsDownOnRequest _ _ _ _ _ heq =>
    rw [heq] at hs
    cases hs
  | stepsDownOnResponse _ _ _ _ _ heq =>
    rw [heq] at hs
    cases hs
  | restarts heq =>
    rw [heq] at hs
    cases hs

theorem KnownLeaders.leaderState_step {a : Action N C} (h : KnownLeaders s)
    (hstep : s.step cfg a = some s') {i : N} (hls : (s'.nodes i).leaderState.isSome = true) :
    (s'.nodes i).state = .leader := by
  cases termStep_step hstep i with
  | stays hk => exact hk.leader.mpr (h.leaderState i (hk.leaderState ▸ hls))
  | stands hs heq =>
    rw [heq] at hls
    exact absurd (h.leaderState i hls) hs
  | wins _ _ hs => exact hs
  | votes _ heq =>
    rw [heq] at hls ⊢
    exact h.leaderState i hls
  | accepts _ _ _ _ _ hk => exact hk.leader.mpr (h.leaderState i (hk.leaderState ▸ hls))
  | stepsDownOnRequest _ _ _ _ _ heq =>
    rw [heq] at hls
    cases hls
  | stepsDownOnResponse _ _ _ _ _ heq =>
    rw [heq] at hls
    cases hls
  | restarts heq =>
    rw [heq] at hls
    cases hls

theorem KnownLeaders.sender_step {a : Action N C} (h : KnownLeaders s)
    (hsave : a.savesWhole = true) (hstep : s.step cfg a = some s') {r : Rpc N C}
    (hr : r ∈ s'.rpcs) {leaderId : N} {prev prevTerm : ℕ} {entries : List (LogEntry C)}
    {leaderCommit : ℕ}
    (hpay : r.message.payload = .appendEntries leaderId prev prevTerm entries leaderCommit) :
    leaderId = r.src ∧ r.message.term ≤ (s'.nodes r.src).persistent.currentTerm := by
  rcases (rpcStep_step hstep hr).request with ⟨r₀, hr₀, heq⟩ | hsent
  · obtain ⟨hsrc, -, hmessage⟩ : r₀.src = r.src ∧ r₀.dst = r.dst ∧ r₀.message = r.message := by
      simpa [Rpc.request] using heq
    obtain ⟨hl, hle⟩ := h.sender r₀ hr₀ leaderId prev prevTerm entries leaderCommit
      (by rw [hmessage]; exact hpay)
    rw [hsrc, hmessage] at hle
    exact ⟨hl.trans hsrc, hle.trans (h.term_le hsave hstep r.src)⟩
  · have hsender := hsent.payload
    rw [hpay] at hsender
    exact ⟨hsender.1, hsent.term.le⟩

/-- An AppendEntries from a node that is not leader after the step was there before it. -/
theorem KnownLeaders.append_old {a : Action N C} (h : KnownLeaders s)
    (hstep : s.step cfg a = some s') {r : Rpc N C} (hr : r ∈ s'.rpcs) (happ : r.IsAppend)
    (hs : (s'.nodes r.src).state ≠ .leader) :
    ∃ r₀ ∈ s.rpcs, r₀.IsAppend ∧ r₀.src = r.src ∧ r₀.message = r.message := by
  rcases (rpcStep_step hstep hr).request with ⟨r₀, hr₀, heq⟩ | hsent
  · obtain ⟨happ₀, hsrc, -, hmessage⟩ := isAppend_of_request heq happ
    exact ⟨r₀, hr₀, happ₀, hsrc, hmessage⟩
  · obtain ⟨leaderId, prev, prevTerm, entries, leaderCommit, hpay⟩ := exists_payload happ
    have hsender := hsent.payload
    rw [hpay] at hsender
    exact absurd (h.leaderState_step hstep hsender.2) hs

theorem KnownLeaders.later_step {a : Action N C} (h : KnownLeaders s)
    (hc : Coupled cfg False s A) (hstep : s.step cfg a = some s') {i j : N}
    (hij : (s'.nodes i).currentLeader = some j) (hne : j ≠ i) :
    ∃ r ∈ s'.rpcs, r.IsAppend ∧ r.src = j ∧
      ∀ r' ∈ s'.rpcs, r'.IsAppend → r'.src = i → r'.message.term < r.message.term := by
  have hs : (s'.nodes i).state ≠ .leader := by
    intro hs
    rw [h.leader_step hc hstep hs] at hij
    exact hne (Option.some.inj hij).symm
  -- whatever `i` has sent, it had sent before the step
  have lift : ∀ r ∈ s.rpcs, r.IsAppend → r.src = j →
      (∀ r' ∈ s.rpcs, r'.IsAppend → r'.src = i → r'.message.term < r.message.term) →
      ∃ r ∈ s'.rpcs, r.IsAppend ∧ r.src = j ∧
        ∀ r' ∈ s'.rpcs, r'.IsAppend → r'.src = i → r'.message.term < r.message.term := by
    intro r hr happ hsrc hlt
    obtain ⟨k, hk⟩ := List.getElem?_of_mem hr
    obtain ⟨r₁, hk₁, heq, -⟩ := keepsRpcs_step hstep k r hk
    obtain ⟨happ₁, hsrc₁, -, hmessage₁⟩ := isAppend_of_request heq happ
    refine ⟨r₁, List.mem_of_getElem? hk₁, happ₁, hsrc₁.trans hsrc, fun r' hr' happ' hsrc' => ?_⟩
    obtain ⟨r₀, hr₀, happ₀, hsrc₀, hmessage₀⟩ :=
      h.append_old hstep hr' happ' (by rw [hsrc']; exact hs)
    rw [hmessage₁, ← hmessage₀]
    exact hlt r₀ hr₀ happ₀ (hsrc₀.trans hsrc')
  have keep : (s'.nodes i).currentLeader = (s.nodes i).currentLeader →
      ∃ r ∈ s'.rpcs, r.IsAppend ∧ r.src = j ∧
        ∀ r' ∈ s'.rpcs, r'.IsAppend → r'.src = i → r'.message.term < r.message.term := by
    intro heq
    obtain ⟨r, hr, happ, hsrc, hlt⟩ := h.later i j (heq ▸ hij) hne
    exact lift r hr happ hsrc hlt
  cases termStep_step hstep i with
  | stays hk => exact keep hk.currentLeader
  | stands _ heq => exact keep (by rw [heq]; rfl)
  | wins _ _ hs' => exact absurd hs' hs
  | votes _ heq => exact keep (by rw [heq])
  | @accepts r leaderId _ _ _ _ hr hdst hst hpay hle hk =>
    subst hdst
    have happ : r.IsAppend := by
      unfold Rpc.IsAppend
      rw [hpay]
      trivial
    obtain rfl := Option.some.inj (hk.currentLeader.symm.trans hij)
    obtain ⟨rfl, -⟩ := h.sender r hr _ _ _ _ _ hpay
    refine lift r hr happ rfl fun r' hr' happ' hsrc' => ?_
    obtain ⟨leaderId', _, _, _, _, hpay'⟩ := exists_payload happ'
    have hle' := (h.sender r' hr' _ _ _ _ _ hpay').2
    rw [hsrc', ← term_eq_of_accepts hc hr hst hle] at hle'
    refine lt_of_le_of_ne hle' fun heq => hne ?_
    rw [← hsrc', src_eq_of_term_eq hc hr' hr happ' happ heq]
  | stepsDownOnRequest _ _ _ _ _ heq => exact keep (by rw [heq]; rfl)
  | stepsDownOnResponse _ _ _ _ _ heq => exact keep (by rw [heq]; rfl)
  | restarts heq =>
    rw [heq] at hij
    cases hij

omit [DecidableEq N] in
theorem losesLeadership_deliver {j : ℕ} {now : ℚ} {r : Rpc N C} {c : N} {i t : ℕ}
    (hr : s.rpcs[j]? = some r) (hpay : r.message.payload = .requestVote c i t) :
    s.losesLeadership (.deliver j now) = decide ((s.nodes r.dst).state = .leader ∧
      r.message.term > (s.nodes r.dst).persistent.currentTerm) := by
  simp [losesLeadership, hr, hpay]

omit [DecidableEq N] in
theorem losesLeadership_reply {k j : ℕ} {i : N} {kind : TaskKind} {o : RaftNode.Outgoing N C}
    {rest : List N} {response : Message N Response}
    (ht : s.tasks[k]? = some ⟨i, kind, .sending o j rest⟩) (hans : s.answerOf j = some response) :
    s.losesLeadership (.reply k) = decide ((s.nodes i).state = .leader ∧
      response.payload.success = false ∧
      response.term > (s.nodes i).persistent.currentTerm) := by
  simp [losesLeadership, ht, hans]

/-- The handler that made a leader step down gives it another leader, unless the node crashes. -/
theorem KnownLeaders.renamed {a : Action N C} (h : KnownLeaders s) (hc : Coupled cfg False s A)
    (hprompt : s.Prompt a) (hstep : s.step cfg a = some s') {i : N} (hren : s.Renames i)
    (hactor : s.actor a = some i) : (s'.nodes i).currentLeader ≠ some i := by
  obtain ⟨j, r, hr, rfl, hst, happ, hle⟩ := hren
  have hends : a.endsStepDown j = true := by
    refine hprompt (r, j) (List.mk_mem_zipIdx_iff_getElem?.mpr hr) ?_ hactor
    show r.stage.isSteppingDown = true
    rw [hst]
    rfl
  have hboot : ∀ file now, ((s.restart r.dst file now).nodes r.dst).currentLeader ≠ some r.dst := by
    intro file now
    rw [nodes_restart_self]
    exact fun heq => by cases heq
  cases stepped hstep with
  | @resumeHandling j' now r' hr' _ =>
    obtain rfl : j' = j := of_decide_eq_true hends
    obtain rfl := Option.some.inj (hr'.symm.trans hr)
    obtain ⟨leaderId, prev, prevTerm, entries, leaderCommit, hpay⟩ := exists_payload happ
    have hmem := List.mem_of_getElem? hr
    obtain ⟨rfl, -⟩ := h.sender r' hmem _ _ _ _ _ hpay
    rcases RaftNode.handleAppendEntries_cases r'.dst now (s.nodes r'.dst) r'.message.term r'.src
      prev prevTerm entries leaderCommit with ⟨hlt, -⟩ | ⟨-, hk⟩
    · exact absurd hlt (Nat.not_lt.mpr hle)
    · unfold handle
      rw [hpay]
      show ((s.setNode r'.dst _).nodes r'.dst).currentLeader ≠ _
      rw [nodes_setNode_self, hk.currentLeader]
      intro heq
      obtain ⟨-, hne⟩ := Config.mem_getOtherNodes.mp (hc.rpcs r' hmem).target
      exact hne (Option.some.inj heq).symm
  | @resumeHandlerApplying j' now r' hr' hst' =>
    obtain rfl : j' = j := of_decide_eq_true hends
    obtain rfl := Option.some.inj (hr'.symm.trans hr)
    rw [hst] at hst'
    cases hst'
  | crash =>
    obtain rfl := Option.some.inj hactor
    exact hboot _ _
  | crashSaving =>
    obtain rfl := Option.some.inj hactor
    exact hboot _ _
  | _ => cases hends

theorem KnownLeaders.renames_step {a : Action N C} (h : KnownLeaders s)
    (hc : Coupled cfg False s A) (hprompt : s.Prompt a) (hkeeps : s.losesLeadership a = false)
    (hstep : s.step cfg a = some s') {i : N} (hs : (s'.nodes i).state ≠ .leader)
    (hi : (s'.nodes i).currentLeader = some i) : s'.Renames i := by
  by_cases hold : (s.nodes i).state ≠ .leader ∧ (s.nodes i).currentLeader = some i
  · have hren := h.renames i hold.1 hold.2
    by_cases hactor : s.actor a = some i
    · exact absurd hi (h.renamed hc hprompt hstep hren hactor)
    · obtain ⟨j, r, hr, hdst, hst, happ, hle⟩ := hren
      obtain ⟨r', hr', -, hsame⟩ := keepsRpcs_step hstep j r hr
      obtain rfl := hsame (by rw [hdst]; exact hactor)
      exact ⟨j, r', hr', hdst, hst, happ, by rw [nodes_of_ne_actor hstep hactor]; exact hle⟩
  -- the node begins to name itself in this step, so it stops leading
  · have stays : (s'.nodes i).currentLeader = (s.nodes i).currentLeader →
        (s.nodes i).state = .leader := by
      intro heq
      by_contra hne
      exact hold ⟨hne, heq ▸ hi⟩
    cases termStep_step hstep i with
    | stays hk => exact absurd (hk.leader.mpr (stays hk.currentLeader)) hs
    | stands hs₀ heq => exact absurd (stays (by rw [heq]; rfl)) hs₀
    | wins _ _ hs' => exact absurd hs' hs
    | votes _ heq =>
      have hlead := stays (by rw [heq])
      rw [heq] at hs
      exact absurd hlead hs
    | @accepts r leaderId _ _ _ _ hr hdst _ hpay _ hk =>
      subst hdst
      obtain ⟨rfl, -⟩ := h.sender r hr _ _ _ _ _ hpay
      obtain ⟨-, hne⟩ := Config.mem_getOtherNodes.mp (hc.rpcs r hr).target
      exact absurd (Option.some.inj (hi.symm.trans hk.currentLeader)) hne
    | @stepsDownOnRequest j now r ha hr hdst hst hlt heq =>
      subst ha hdst
      have hlead := stays (by rw [heq]; rfl)
      refine ⟨j, { r with stage := .steppingDown }, ?_, rfl, rfl, ?_, ?_⟩
      · cases stepped hstep with
        | @deliver _ _ r' hr' _ =>
          obtain rfl := Option.some.inj (hr'.symm.trans hr)
          unfold deliver
          rw [if_pos hlt]
          exact getElem?_set_of_some hr _
      · unfold Rpc.IsAppend
        show match r.message.payload with
          | .appendEntries .. => True
          | .requestVote .. => False
        cases hpay : r.message.payload with
        | appendEntries => trivial
        | requestVote =>
          rw [losesLeadership_deliver hr hpay] at hkeeps
          exact absurd ⟨hlead, hlt⟩ (of_decide_eq_false hkeeps)
      · rw [heq]
        exact le_rfl
    | stepsDownOnResponse ha ht hans hfail hlt heq =>
      subst ha
      have hlead := stays (by rw [heq]; rfl)
      rw [losesLeadership_reply ht hans] at hkeeps
      exact absurd ⟨hlead, hfail, hlt⟩ (of_decide_eq_false hkeeps)
    | restarts heq =>
      rw [heq] at hi
      cases hi

theorem KnownLeaders.step {a : Action N C} (h : KnownLeaders s) (hc : Coupled cfg False s A)
    (ha : s.Forwards a) (hstep : s.step cfg a = some s') : KnownLeaders s' where
  inPlace := h.inPlace.step h.saved hstep
  saved := saved_step h.saved hstep
  leader _ hs := h.leader_step hc hstep hs
  leaderState _ hls := h.leaderState_step hstep hls
  sender _ hr _ _ _ _ _ hpay := h.sender_step ha.1 hstep hr hpay
  later _ _ hij hne := h.later_step hc hstep hij hne
  renames _ hs hi := h.renames_step hc ha.2.1 ha.2.2 hstep hs hi

/-! ## Runs -/

omit [DecidableEq N] in
theorem knownLeaders_boot (start : N → ℚ) : KnownLeaders (boot start : Cluster N C) where
  inPlace := (ballots_boot start).inPlace
  saved _ := rfl
  leader _ hs := by cases hs
  leaderState _ hls := by cases hls
  sender _ hr := by cases hr
  later _ _ hij := by cases hij
  renames _ _ hi := by cases hi

theorem KnownLeaders.run {acts : List (Action N C)} (h : KnownLeaders s)
    (hA : Consistent LogEntry.term cfg.quorums A) (hc : Coupled cfg False s A)
    (hsteps : s.EachStep cfg Forwards acts) (hrun : s.run cfg acts = some s') :
    KnownLeaders s' := by
  induction acts generalizing s A with
  | nil => exact Option.some.inj hrun ▸ h
  | cons a rest ih =>
    obtain ⟨t, ht, hrest⟩ := Transition.run_cons hrun
    obtain ⟨A', -, hA', hc'⟩ := Simulated.step hc hA hsteps.1.1 (fun hf => hf.elim) ht
    exact ih (h.step hc hsteps.1 ht) hA' hc' (hsteps.tail ht) hrest

/-- A leader that steps down to a RequestVote or to an answer goes on naming itself. -/
theorem KnownLeaders.names_itself {a : Action N C} (h : KnownLeaders s)
    (hstep : s.step cfg a = some s') (hloses : s.losesLeadership a = true) :
    ∃ i, (s'.nodes i).state ≠ .leader ∧ (s'.nodes i).currentLeader = some i := by
  have down : ∀ i T, (s.nodes i).state = .leader →
      s'.nodes i = (s.nodes i).stepDown T →
      ∃ i, (s'.nodes i).state ≠ .leader ∧ (s'.nodes i).currentLeader = some i := by
    intro i T hs heq
    refine ⟨i, ?_, ?_⟩
    · rw [heq]
      exact fun h => by cases h
    · rw [heq]
      exact h.leader i hs
  cases stepped hstep with
  | @deliver j now r hr _ =>
    cases hpay : r.message.payload with
    | requestVote c i t =>
      rw [losesLeadership_deliver hr hpay] at hloses
      obtain ⟨hs, hlt⟩ := of_decide_eq_true hloses
      refine down r.dst r.message.term hs ?_
      unfold deliver
      rw [if_pos hlt]
      exact nodes_setNode_self s r.dst _
    | appendEntries => simp [losesLeadership, hr, hpay] at hloses
  | @reply k j i kind o rest response ht hans =>
    rw [losesLeadership_reply ht hans] at hloses
    obtain ⟨hs, hfail, hlt⟩ := of_decide_eq_true hloses
    refine down i response.term hs ?_
    have hdown : (s.nodes i).handleResponse o (some response) =
        some ((s.nodes i).stepDown response.term, true) := by
      unfold RaftNode.handleResponse
      simp [hfail, hlt]
    unfold sendReturns
    dsimp only
    rw [hdown]
    exact nodes_setNode_self s i _
  | _ => cases hloses

/-- In a run whose crashes spare `_save_state` and in which no leader steps down to a RequestVote or
    to an answer, no request circles and no node but a leader names itself. A leader that does step
    down so goes on naming itself. -/
theorem forwarding_never_circles {start : N → ℚ} {acts : List (Action N C)}
    (hsteps : (boot start).EachStep cfg Forwards acts) (hrun : (boot start).run cfg acts = some s) :
    (s.Settled → s.NeverCircles ∧
      ∀ i, (s.nodes i).state ≠ .leader → (s.nodes i).currentLeader ≠ some i) ∧
    ∀ a s', s.step cfg a = some s' → s.losesLeadership a = true →
      ∃ i, (s'.nodes i).state ≠ .leader ∧ (s'.nodes i).currentLeader = some i := by
  have h : KnownLeaders s := (knownLeaders_boot start).run consistent_init
    (coupled_boot cfg False start) hsteps hrun
  refine ⟨fun hsettled => ⟨h.neverCircles hsettled, fun i hs hi => ?_⟩,
    fun a s' hstep hloses => h.names_itself hstep hloses⟩
  have hij : s.forward i = some i := by
    unfold forward
    rw [if_neg hs]
    exact hi
  exact h.forward_ne hsettled hij rfl

/-- Node 1 follows node 0, which leads, and forwards to it. -/
theorem forwarding_reaches_leader : ∃ s : Cluster (Fin 3) ℕ,
    (boot fun _ => 0).run threeNodes (electionOfZero ++ replication) = some s ∧
      s.hops 1 1 = some 0 ∧ s.NeverCircles := by
  have hrun : ((boot fun _ => 0 : Cluster (Fin 3) ℕ).run threeNodes
      (electionOfZero ++ replication)).any (fun s => decide (s.hops 1 1 = some 0) &&
        s.rpcs.all fun r => !r.stage.isSteppingDown) = true := by
    decide +kernel
  have hsteps : (boot fun _ => 0 : Cluster (Fin 3) ℕ).EachStep threeNodes Forwards
      (electionOfZero ++ replication) := by
    decide +kernel
  obtain ⟨s, hs, hrest⟩ := (Option.any_eq_true _ _).mp hrun
  obtain ⟨hhops, hall⟩ := Bool.and_eq_true_iff.mp hrest
  have hsettled : s.Settled := fun r hr => by simpa using List.all_eq_true.mp hall r hr
  exact ⟨s, hs, of_decide_eq_true hhops, ((forwarding_never_circles hsteps hs).1 hsettled).1⟩

/-- Node 0 leads term 1 when node 1 stands for term 2. -/
def challengedByOne : List (Action (Fin 3) ℕ) :=
  electionOfZero ++ .becameLeader 0 :: .electionTimeout 1 (1 / 5) 3 :: handled 2 3

/-- Node 0 has stepped down and forwards every request to itself. -/
theorem deposed_leader_circles : ∃ s : Cluster (Fin 3) ℕ,
    (boot fun _ => 0).run threeNodes challengedByOne = some s ∧ s.Settled ∧ ¬ s.NeverCircles ∧
      (s.nodes 0).state ≠ .leader ∧ (s.nodes 0).currentLeader = some 0 := by
  have hrun : ((boot fun _ => 0 : Cluster (Fin 3) ℕ).run threeNodes challengedByOne).any
      (fun s => (s.rpcs.all fun r => !r.stage.isSteppingDown) && (decide (s.hops 1 0 = some 0) &&
        (decide ((s.nodes 0).state ≠ .leader) && decide ((s.nodes 0).currentLeader = some 0)))) =
      true := by
    decide +kernel
  obtain ⟨s, hs, hrest⟩ := (Option.any_eq_true _ _).mp hrun
  obtain ⟨hall, hrest⟩ := Bool.and_eq_true_iff.mp hrest
  obtain ⟨hhops, hrest⟩ := Bool.and_eq_true_iff.mp hrest
  obtain ⟨hstate, hleader⟩ := Bool.and_eq_true_iff.mp hrest
  refine ⟨s, hs, fun r hr => by simpa using List.all_eq_true.mp hall r hr, fun hnever => ?_,
    of_decide_eq_true hstate, of_decide_eq_true hleader⟩
  have := hnever 0 0 1 0 rfl (of_decide_eq_true hhops)
  omega

end Cluster

end Pynchronize
