import Pynchronize.Raft.Handlers
import Pynchronize.Raft.Step

/-!
# Every step is simulated

Each action of the cluster keeps `Simulated`. The facts about commitment need
that no success of an earlier term is booked in the `leader_state` of a later
one: `staleSuccess` says when a step does that.
-/

namespace Pynchronize

open Lib Lib.Replication

variable {N C : Type*} [DecidableEq N]

namespace Cluster

/-- `_send_append_entries` is about to book a success whose AppendEntries its node sent in an
    earlier term of its leadership. -/
def staleSuccess (s : Cluster N C) : Action N C → Bool
  | .reply k =>
    match s.tasks[k]? with
    | some ⟨i, _, .sending o j _⟩ =>
      match s.rpcs[j]?, s.answerOf j with
      | some r, some response =>
        response.payload.success && !o.entries.isEmpty && (s.nodes i).state == .leader &&
          r.message.term != (s.nodes i).persistent.currentTerm
      | _, _ => false
    | _ => false
  | _ => false

omit [DecidableEq N] in
theorem answerOf_eq_some {s : Cluster N C} {j : ℕ} {response : Message N Response}
    (h : s.answerOf j = some response) :
    ∃ r, s.rpcs[j]? = some r ∧ r.stage = .answered response := by
  unfold answerOf at h
  split at h
  · rename_i r hr
    split at h
    · rename_i m hm
      exact ⟨r, hr, by rw [hm, Option.some.inj h]⟩
    · cases h
  · cases h

omit [DecidableEq N] in
theorem getElem?_post (s : Cluster N C) (src dst : N) (message : Message N (Request N C)) :
    (s.post src dst message).rpcs[s.rpcs.length]? = some ⟨src, dst, message, .inFlight⟩ := by
  simp [post]

end Cluster

variable {cfg : Config N} {clean : Prop} {s : Cluster N C} {A A' : History N C}

/-! ## Sending AppendEntries -/

theorem Coupled.keepRole (h : Coupled cfg clean s A)
    (hA : Consistent LogEntry.term cfg.quorums A) {i : N} (hi : i ∈ cfg.nodes)
    (g : ActsOf i A A') {n : RaftNode N C} (hn : NodeOk cfg clean A' i n)
    (hk : RaftNode.KeepsRole (s.nodes i) n)
    (hL : ∀ T x, A'.elected T = some x → Indexed (A'.leaderLog T)) :
    Coupled cfg clean (s.setNode i n) A' := by
  refine h.act hA g hn ?_ hL
  exact (h.broadcasts i hi).of_eq hk.electionTask fun hs => ⟨hk.candidate hs, hk.currentTerm⟩

theorem Coupled.applied (h : Coupled cfg clean s A)
    (hA : Consistent LogEntry.term cfg.quorums A) (k : ℕ) {t : Task N C}
    (ht : t.node ∈ cfg.nodes) {result : RaftNode N C × Bool}
    (hn : NodeOk cfg clean A t.node result.1)
    (hk : RaftNode.KeepsRole (s.nodes t.node) result.1) :
    Coupled cfg clean (s.applied k t result) A := by
  refine (h.keepRole hA ht (ActsOf.refl _ A) hn hk h.leaderLogs).setPc k ht ?_
  split
  · trivial
  · cases t.kind <;> trivial

omit [DecidableEq N] in
theorem lastTerm_take_of_getLogEntry (n : RaftNode N C) {k : ℕ}
    (hk : k ≤ n.persistent.log.length) :
    (match n.getLogEntry k with
      | some prevEntry => prevEntry.term
      | none => 0) = lastTerm LogEntry.term (n.persistent.log.take k) := by
  cases k with
  | zero => rfl
  | succ p =>
    obtain ⟨e, he⟩ : ∃ e, n.persistent.log[p]? = some e := ⟨_, List.getElem?_eq_getElem hk⟩
    rw [RaftNode.getLogEntry_succ, he, List.take_add_one, he]
    simp [lastTerm]

theorem slice_outgoing (n : RaftNode N C) (ls : LeaderState N) (nodeId : N) :
    Slice n.persistent.log (n.outgoing ls nodeId).prevLogIndex
      (match n.getLogEntry (n.outgoing ls nodeId).prevLogIndex with
        | some prevEntry => prevEntry.term
        | none => 0) (n.outgoing ls nodeId).entries := by
  rcases Nat.lt_or_ge n.persistent.log.length (n.outgoing ls nodeId).prevLogIndex with hlt | hle
  · -- `next_index` beyond the end of the log and the place after it
    refine Or.inr ⟨by omega, ?_, ?_⟩
    · cases he : n.getLogEntry (n.outgoing ls nodeId).prevLogIndex with
      | none => rfl
      | some e =>
        have := (List.getElem?_eq_some_iff.mp (RaftNode.getLogEntry_eq_some he).2).1
        omega
    · unfold RaftNode.outgoing at hlt ⊢
      dsimp only at hlt ⊢
      rw [if_neg (by omega)]
  · refine Or.inl ⟨hle, lastTerm_take_of_getLogEntry n hle, ?_⟩
    unfold RaftNode.outgoing
    dsimp only
    split
    · rw [List.take_append_drop]
    · rw [List.append_nil]
      exact List.take_prefix _ _

theorem length_le_outgoing (n : RaftNode N C) (ls : LeaderState N) (nodeId : N) :
    n.persistent.log.length ≤
      (n.outgoing ls nodeId).prevLogIndex + (n.outgoing ls nodeId).entries.length := by
  unfold RaftNode.outgoing
  dsimp only
  split
  · rw [List.length_drop]
    omega
  · omega

/-- An AppendEntries is built by the leader of its term from its own log. -/
theorem NodeOk.rpcOk_outgoing {i : N} {n : RaftNode N C} (h : NodeOk cfg clean A i n)
    {ls : LeaderState N} (hls : n.leaderState = some ls) {nodeId : N}
    (hd : nodeId ∈ cfg.getOtherNodes i) :
    RpcOk cfg clean A
      ⟨i, nodeId, n.appendEntriesMessage i (n.outgoing ls nodeId), .inFlight⟩ where
  target := hd
  request := by
    obtain ⟨Q, hQ, hL⟩ := h.leads (h.state_of_leaderState hls)
    have hlog : A.leaderLog (A.term i) = n.persistent.log := hL.trans h.log_eq.symm
    show RequestOk cfg clean A i n.persistent.currentTerm _
    rw [h.term_eq]
    refine ⟨⟨Q, hQ⟩, ?_, fun hc => ⟨?_, ?_⟩⟩
    · rw [hlog]
      exact slice_outgoing n ls nodeId
    · exact (h.settled hc).1.trans (length_le_outgoing n ls nodeId)
    · rw [hlog]
      exact h.settled hc
  stepped hs := by cases hs
  granted hs := by cases hs
  accepted hs := by cases hs

theorem Coupled.sendNext (h : Coupled cfg clean s A)
    (hA : Consistent LogEntry.term cfg.quorums A) (k : ℕ) {t : Task N C}
    (ht : t.node ∈ cfg.nodes) {rest : List N} (hrest : ∀ d ∈ rest, d ∈ cfg.getOtherNodes t.node) :
    Coupled cfg clean (s.sendNext cfg k t rest) A := by
  have hn := h.nodes t.node ht
  cases rest with
  | nil =>
    exact h.applied hA k ht (hn.tryCommit hA ht) (RaftNode.keepsRole_tryCommit cfg _)
  | cons nodeId rest =>
    unfold Cluster.sendNext
    cases hls : (s.nodes t.node).leaderState with
    | none => exact h.setPc k ht trivial
    | some ls =>
      have hd := hrest nodeId (List.mem_cons_self ..)
      refine (h.post (hn.rpcOk_outgoing hls hd)).setPc k ht ⟨?_, hd, ?_⟩
      · rw [Cluster.getElem?_post]
        exact ⟨_, _, _, rfl⟩
      · exact fun d hm => hrest d (List.mem_cons_of_mem _ hm)

theorem Coupled.sendAppendEntries (h : Coupled cfg clean s A)
    (hA : Consistent LogEntry.term cfg.quorums A) (k : ℕ) {t : Task N C}
    (ht : t.node ∈ cfg.nodes) : Coupled cfg clean (s.sendAppendEntries cfg k t) A := by
  unfold Cluster.sendAppendEntries
  split
  · refine h.setPc k ht ?_
    cases t.kind <;> trivial
  · exact h.sendNext hA k ht fun d hd => hd

/-! ## Answers to AppendEntries -/

theorem NodeOk.withLeaderState {i : N} {n : RaftNode N C} (h : NodeOk cfg clean A i n)
    {ls ls' : LeaderState N} (hls : n.leaderState = some ls)
    (hm : clean → ∀ f m, ls'.matchIndex.get? f = some m →
      ls.matchIndex.get? f = some m ∨ f ∈ cfg.getOtherNodes i ∧ m ≤ A.acked (A.term i) f) :
    NodeOk cfg clean A i { n with leaderState := some ls' } :=
  { h with
    leaderState := ⟨fun _ => h.state_of_leaderState hls, fun _ => rfl⟩
    matched := by
      intro hc ls'' hls'' f m hf
      obtain rfl := Option.some.inj hls''
      rcases hm hc f m hf with hold | hnew
      · exact h.matched hc ls hls f m hold
      · exact hnew }

/-- What the sender learns from a success of its own term. -/
theorem Coupled.acked_of_success (h : Coupled cfg clean s A) {i : N} {o : RaftNode.Outgoing N C}
    {j : ℕ} {rest : List N} (hpc : PcOk cfg s.rpcs i (.sending o j rest))
    {response : Message N Response} (hans : s.answerOf j = some response)
    (hsucc : response.payload.success = true) :
    ∃ r, s.rpcs[j]? = some r ∧
      o.prevLogIndex + o.entries.length ≤ A.acked r.message.term o.nodeId := by
  obtain ⟨⟨T, prevTerm, lc, hreq⟩, -, -⟩ := hpc
  obtain ⟨r, hj, hstage⟩ := Cluster.answerOf_eq_some hans
  rw [hj] at hreq
  simp only [Option.map_some, Option.some.injEq, Rpc.request, Prod.mk.injEq] at hreq
  obtain ⟨-, hdst, hmsg⟩ := hreq
  have hacc : r.stage.accepted = true := by
    rw [hstage]
    exact hsucc
  have := (h.rpcs r (List.mem_of_getElem? hj)).accepted hacc i o.prevLogIndex prevTerm
    o.entries lc (by rw [hmsg])
  rw [hdst] at this
  exact ⟨r, hj, this⟩

theorem Simulated.stepDown (h : Coupled cfg clean s A)
    (hA : Consistent LogEntry.term cfg.quorums A) {i : N} (hi : i ∈ cfg.nodes) {T : ℕ}
    (hT : (s.nodes i).persistent.currentTerm < T) :
    Extends A (A.advance i T) ∧ Consistent LogEntry.term cfg.quorums (A.advance i T) ∧
      Coupled cfg clean (s.setNode i ((s.nodes i).stepDown T)) (A.advance i T) := by
  have hle : A.term i ≤ T := (h.nodes i hi).term_eq ▸ hT.le
  refine ⟨(advance_acts i hle).grows, hA.advance i hle,
    h.act hA (advance_acts i hle) ((h.nodes i hi).stepDown hA hT) ?_ h.leaderLogs⟩
  exact (h.broadcasts i hi).of_eq rfl fun hs => by cases hs

theorem Simulated.sendReturns (h : Coupled cfg clean s A)
    (hA : Consistent LogEntry.term cfg.quorums A) (k : ℕ) {t : Task N C}
    (ht : t.node ∈ cfg.nodes) {o : RaftNode.Outgoing N C} {j : ℕ} {rest : List N}
    (hpc : PcOk cfg s.rpcs t.node (.sending o j rest)) {response : Option (Message N Response)}
    (hans : ∀ m, response = some m → s.answerOf j = some m)
    (hfresh : clean → ∀ m r, response = some m → s.rpcs[j]? = some r →
      m.payload.success = true → o.entries.isEmpty = false → (s.nodes t.node).state = .leader →
      r.message.term = (s.nodes t.node).persistent.currentTerm) :
    Simulated cfg clean A (s.sendReturns cfg k t o rest response) := by
  have hn := h.nodes t.node ht
  have hd : o.nodeId ∈ cfg.getOtherNodes t.node := hpc.2.1
  have hrest : ∀ d ∈ rest, d ∈ cfg.getOtherNodes t.node := hpc.2.2
  -- the loop goes on with a changed `leader_state` or with the same node
  have hnext : ∀ n, NodeOk cfg clean A t.node n → RaftNode.KeepsRole (s.nodes t.node) n →
      Simulated cfg clean A ((s.setNode t.node n).sendNext cfg k t rest) := fun n hok hk =>
    ⟨A, Extends.refl A, hA,
      (h.keepRole hA ht (ActsOf.refl _ A) hok hk h.leaderLogs).sendNext hA k ht hrest⟩
  have hraise : Simulated cfg clean A (s.setPc k t .raised) :=
    ⟨A, Extends.refl A, hA, h.setPc k ht trivial⟩
  unfold Cluster.sendReturns
  split
  · exact hraise
  · rename_i n heq
    cases RaftNode.responds heq with
    | stepsDown _ hterm =>
      obtain ⟨g, hA', h'⟩ := Simulated.stepDown h hA ht hterm
      exact ⟨_, g, hA', h'.setPc k ht hrest⟩
  · rename_i n heq
    cases RaftNode.responds heq with
    | passes => exact hnext _ hn (RaftNode.KeepsRole.refl _)
    | @books m ls hsucc hentries hls =>
      refine hnext _ (hn.withLeaderState hls fun hc f x hf => ?_) ⟨rfl, rfl, id, id⟩
      rw [Dict.get?_set] at hf
      split at hf
      · rename_i hfo
        subst hfo
        obtain ⟨r, hr, hack⟩ := h.acked_of_success hpc (hans m rfl) hsucc
        have hterm := hfresh hc m r rfl hr hsucc hentries (hn.state_of_leaderState hls)
        rw [hterm, hn.term_eq] at hack
        exact Or.inr ⟨hd, Option.some.inj hf ▸ hack⟩
      · exact Or.inl hf
    | backsOff hls =>
      exact hnext _ (hn.withLeaderState hls fun _ f x hf => Or.inl hf) ⟨rfl, rfl, id, id⟩

/-! ## Handlers -/

theorem Simulated.handle [DecidableEq C] (h : Coupled cfg clean s A)
    (hA : Consistent LogEntry.term cfg.quorums A) {j : ℕ} {r : Rpc N C}
    (hj : s.rpcs[j]? = some r)
    (hT : r.message.term ≤ (s.nodes r.dst).persistent.currentTerm) (now : ℚ) :
    Simulated cfg clean A (s.handle j r now) := by
  have hr := h.rpcs r (List.mem_of_getElem? hj)
  obtain ⟨hdst, hne⟩ := Config.mem_getOtherNodes.mp hr.target
  have hn := h.nodes r.dst hdst
  have hreq := hr.request
  unfold Cluster.handle
  cases hp : r.message.payload with
  | requestVote candidateId lastLogIndex lastLogTerm =>
    rw [hp] at hreq
    obtain ⟨A', hA', g, hn', hel, hL, hgrant⟩ := hn.handleRequestVote hA hreq hT now
    have hL' : ∀ T x, A'.elected T = some x → Indexed (A'.leaderLog T) := by
      rw [hel, hL]
      exact h.leaderLogs
    refine ⟨A', g.grows, hA', (h.keepRole hA hdst g hn'
      (RaftNode.keepsRole_handleRequestVote _ _ _ _ _ _ _) hL').setStage hj ?_⟩
    have hr' := hr.mono hA g.grows
    exact
      { target := hr.target
        request := hr'.request
        stepped := fun hs => by cases hs
        granted := hgrant
        accepted := by
          intro _ leaderId prev prevTerm entries lc hq
          have hq : r.message.payload = _ := hq
          rw [hp] at hq
          cases hq }
  | appendEntries leaderId prev prevTerm entries lc =>
    rw [hp] at hreq
    obtain ⟨A', hA', g, hn', hel, hL, hvote, hacc⟩ :=
      hn.handleAppendEntries hA hreq h.leaderLogs hT (Ne.symm hne) now
    have hL' : ∀ T x, A'.elected T = some x → Indexed (A'.leaderLog T) := by
      rw [hel, hL]
      exact h.leaderLogs
    refine ⟨A', g.grows, hA', (h.keepRole hA hdst g hn'
      (RaftNode.keepsRole_handleAppendEntries _ _ _ _ _ _ _ _ _) hL').setStage hj ?_⟩
    have hr' := hr.mono hA g.grows
    refine
      { target := hr.target
        request := hr'.request
        stepped := fun hs => ?_
        granted := fun hs => ?_
        accepted := fun hs l p pt es c hq => ?_ }
    · dsimp only at hs
      split at hs <;> cases hs
    · dsimp only at hs
      split at hs
      · rename_i response hres
        have : response.payload.voteGranted = true := hs
        rw [hvote response hres] at this
        cases this
      · cases hs
    · have hq : r.message.payload = _ := hq
      rw [hp] at hq
      cases hq
      refine hacc ?_
      dsimp only at hs
      split at hs
      · rename_i response hres
        exact Or.inr ⟨response, hres, hs⟩
      · rename_i hres
        exact Or.inl hres

theorem Simulated.deliver [DecidableEq C] (h : Coupled cfg clean s A)
    (hA : Consistent LogEntry.term cfg.quorums A) {j : ℕ} {r : Rpc N C}
    (hj : s.rpcs[j]? = some r) (now : ℚ) : Simulated cfg clean A (s.deliver j r now) := by
  have hr := h.rpcs r (List.mem_of_getElem? hj)
  have hdst := (Config.mem_getOtherNodes.mp hr.target).1
  unfold Cluster.deliver
  split
  · rename_i hT
    obtain ⟨g, hA', h'⟩ := Simulated.stepDown h hA hdst hT
    have hr' := hr.mono hA g
    refine ⟨_, g, hA', h'.setStage hj ?_⟩
    exact
      { target := hr.target
        request := hr'.request
        stepped := fun _ => by simp [advance]
        granted := fun hs => by cases hs
        accepted := fun hs => by cases hs }
  · rename_i hT
    exact Simulated.handle h hA hj (not_lt.mp hT) now

theorem Coupled.handlerApplied (h : Coupled cfg clean s A)
    (hA : Consistent LogEntry.term cfg.quorums A) {j : ℕ} {r : Rpc N C}
    (hj : s.rpcs[j]? = some r) (hst : r.stage = .applying) :
    Coupled cfg clean (s.handlerApplied j r) A := by
  have hr := h.rpcs r (List.mem_of_getElem? hj)
  have hdst := (Config.mem_getOtherNodes.mp hr.target).1
  refine (h.keepRole hA hdst (ActsOf.refl _ A) (h.nodes r.dst hdst).applyCommitted
    (RaftNode.keepsRole_applyCommitted _) h.leaderLogs).setStage hj ?_
  have hacc := hr.accepted (by rw [hst]; rfl)
  refine { hr with stepped := fun hs => ?_, granted := fun hs => ?_, accepted := fun _ => hacc }
  · dsimp only at hs
    split at hs <;> cases hs
  · dsimp only at hs
    split at hs <;> cases hs

/-! ## Elections -/

theorem Coupled.broadcastRequestVote (h : Coupled cfg clean s A)
    (hA : Consistent LogEntry.term cfg.quorums A) {i : N} (hi : i ∈ cfg.nodes)
    (hs : (s.nodes i).state = .candidate) :
    Coupled cfg clean (s.broadcastRequestVote cfg i) A := by
  have hn := h.nodes i hi
  obtain ⟨hcamp, hvote, -⟩ := hn.stands hs
  unfold Cluster.broadcastRequestVote
  have hsent := h.setRpcs (keepsRequests_append s.rpcs
    ((cfg.getOtherNodes i).map fun d => ⟨i, d, (s.nodes i).requestVoteMessage i, .inFlight⟩)) (by
      intro r hr
      rcases List.mem_append.mp hr with hr | hr
      · exact h.rpcs r hr
      · obtain ⟨d, hd, rfl⟩ := List.mem_map.mp hr
        exact
          { target := hd
            request := by
              show RequestOk cfg clean A i (s.nodes i).persistent.currentTerm _
              rw [hn.term_eq]
              exact ⟨rfl, hvote, by rw [hcamp, hn.lastLogIndex], by rw [hcamp, hn.lastLogTerm]⟩
            stepped := fun hs => by cases hs
            granted := fun hs => by cases hs
            accepted := fun hs => by cases hs })
  refine hsent.act hA (ActsOf.refl i A) { hn with } ?_ h.leaderLogs
  intro sends hsends send hm
  obtain rfl := ElectionTask.broadcasting.inj hsends
  obtain ⟨hle, hget⟩ := List.mk_mem_zipIdx_iff_le_and_getElem?_sub.mp hm
  refine ⟨(s.nodes i).persistent.currentTerm, ((s.nodes i).requestVoteMessage i).payload, ?_,
    List.mem_of_getElem? hget, fun _ => rfl⟩
  rw [List.getElem?_append_right hle, List.getElem?_map, hget]
  rfl

theorem Simulated.electionTimeout (h : Coupled cfg clean s A)
    (hA : Consistent LogEntry.term cfg.quorums A) {i : N} (hi : i ∈ cfg.nodes)
    (hs : (s.nodes i).state ≠ .leader) (hsleep : (s.nodes i).electionTask = .sleeping) :
    Simulated cfg clean A
      ((s.setNode i ((s.nodes i).startElection i)).broadcastRequestVote cfg i) := by
  have h' := h.act hA (nominate_acts hA i) ((h.nodes i hi).startElection hA hi hs)
    (fun sends hsends => by
      have : (s.nodes i).electionTask = .broadcasting sends := hsends
      rw [hsleep] at this
      cases this)
    h.leaderLogs
  refine ⟨_, (nominate_acts hA i).grows, hA.nominate i,
    h'.broadcastRequestVote (hA.nominate i) hi ?_⟩
  simp [Cluster.setNode, RaftNode.startElection, RaftNode.saveState]

omit [DecidableEq N] in
theorem keepsRole_foldl_collectVote [DecidableEq N] (n : RaftNode N C)
    (responses : List (N × Option (Message N Response))) :
    RaftNode.KeepsRole n (responses.foldl RaftNode.collectVote n) := by
  obtain ⟨votes, heq, -⟩ := n.foldl_collectVote_eq responses
  rw [heq]
  exact ⟨rfl, rfl, id, id⟩

theorem NodeOk.foldl_collectVote {i : N} {n : RaftNode N C} (h : NodeOk cfg clean A i n)
    {responses : List (N × Option (Message N Response))}
    (hr : ∀ response ∈ responses, n.state = .candidate → ∀ message, response.2 = some message →
      message.payload.voteGranted = true →
        response.1 ∈ cfg.nodes ∧ ∃ w, A.vote (A.term i) response.1 = some (i, w)) :
    NodeOk cfg clean A i (responses.foldl RaftNode.collectVote n) := by
  obtain ⟨votes, heq, hvotes, -⟩ := n.foldl_collectVote_eq responses
  rw [heq]
  refine { h with ballots := fun hs v hv => ?_ }
  rcases (hvotes v).mp hv with ⟨message, hmem, hgranted⟩ | hold
  · exact hr _ hmem hs message rfl hgranted
  · exact h.ballots hs v hold

/-- The votes that `broadcast` brings to a node that is still a candidate are votes of the term it
    is in. -/
theorem Coupled.collectVotes (h : Coupled cfg clean s A) {i : N} (hi : i ∈ cfg.nodes)
    {sends : List (N × ℕ)} (hsends : (s.nodes i).electionTask = .broadcasting sends)
    (received : List N) :
    NodeOk cfg clean A i
      ((s.responses sends received).foldl RaftNode.collectVote (s.nodes i)) := by
  have hn := h.nodes i hi
  refine hn.foldl_collectVote fun response hmem hs message hm hg => ?_
  obtain ⟨send, hsend, rfl⟩ := List.mem_map.mp hmem
  obtain ⟨T, payload, hreq, hother, hterm⟩ := h.broadcasts i hi sends hsends send hsend
  dsimp only at hm
  split at hm
  · obtain ⟨r, hr, hstage⟩ := Cluster.answerOf_eq_some hm
    rw [hr] at hreq
    simp only [Option.map_some, Option.some.injEq, Rpc.request, Prod.mk.injEq] at hreq
    obtain ⟨hsrc, hdst, hmsg⟩ := hreq
    obtain ⟨w, hw⟩ := (h.rpcs r (List.mem_of_getElem? hr)).granted (by rw [hstage]; exact hg)
    rw [hsrc, hdst, hmsg, hterm hs, hn.term_eq] at hw
    exact ⟨(Config.mem_getOtherNodes.mp hother).1, w, hw⟩
  · cases hm

theorem NodeOk.withElectionTask {i : N} {n : RaftNode N C} (h : NodeOk cfg clean A i n)
    (e : ElectionTask N) : NodeOk cfg clean A i { n with electionTask := e } :=
  { h with }

theorem Simulated.countVotes (h : Coupled cfg clean s A)
    (hA : Consistent LogEntry.term cfg.quorums A) {i : N} {n : RaftNode N C}
    (hn : NodeOk cfg clean A i n) :
    Simulated cfg clean A (s.countVotes cfg i n) := by
  unfold Cluster.countVotes
  split
  · rename_i hwin
    obtain ⟨hcamp, -, hnot⟩ := hn.stands hwin.2
    have hQ : cfg.quorums.IsQuorum n.votesReceived.keys.toFinset := by
      refine Config.isQuorum_of_card ?_ ?_
      · intro v hv
        rw [List.mem_toFinset] at hv ⊢
        exact (hn.ballots hwin.2 v hv).1
      · rw [List.toFinset_card_of_nodup n.votesReceived.keys_nodup]
        exact hwin.1
    have hvotes : ∀ v ∈ n.votesReceived.keys.toFinset,
        ∃ w, A.vote (A.term i) v = some (i, w) := fun v hv =>
      (hn.ballots hwin.2 v (List.mem_toFinset.mp hv)).2
    have hnone := hA.elected_eq_none hQ hvotes hnot
    have g := elect_acts hA i n.votesReceived.keys.toFinset hnone
    refine ⟨_, g.grows, hA.elect hQ hvotes hcamp hnone, h.act hA g
      ((hn.becomeLeader hA hnone).withElectionTask .becomingLeader) ?_ ?_⟩
    · intro sends hs
      cases hs
    · intro T x hx
      by_cases hT : T = A.term i
      · subst hT
        simp only [elect, Function.update_self]
        rw [← hn.log_eq]
        exact hn.indexed
      · simp only [elect, Function.update_of_ne hT] at hx ⊢
        exact h.leaderLogs T x hx
  · exact ⟨A, Extends.refl A, hA, h.act hA (ActsOf.refl i A) { hn with }
      (fun sends hs => by cases hs) h.leaderLogs⟩

/-! ## Coroutines that start and end -/

omit [DecidableEq N] in
theorem cancelTask_cases (t : Task N C) :
    Cluster.cancelTask t = t ∨ Cluster.cancelTask t = { t with pc := .cancelled } := by
  unfold Cluster.cancelTask
  split
  · exact Or.inl rfl
  · exact Or.inl rfl
  · exact Or.inr rfl

theorem TaskOk.cancel {rpcs : List (Rpc N C)} {t : Task N C} (h : TaskOk cfg rpcs t) :
    TaskOk cfg rpcs (Cluster.cancelTask t) := by
  rcases cancelTask_cases t with heq | heq
  · rw [heq]
    exact h
  · rw [heq]
    exact ⟨h.node_mem, trivial⟩

theorem Coupled.spawn (h : Coupled cfg clean s A) {t : Task N C} (ht : TaskOk cfg s.rpcs t) :
    Coupled cfg clean (s.spawn t) A := by
  refine h.setTasks fun t' ht' => ?_
  rcases List.mem_append.mp ht' with hm | hm
  · exact h.tasks t' hm
  · rw [List.mem_singleton.mp hm]
    exact ht

theorem Coupled.startHeartbeat (h : Coupled cfg clean s A)
    (hA : Consistent LogEntry.term cfg.quorums A) {i : N} (hi : i ∈ cfg.nodes) :
    Coupled cfg clean (s.startHeartbeat i) A := by
  have hstart : ∀ tasks, (∀ t ∈ tasks, TaskOk cfg s.rpcs t) →
      Coupled cfg clean (({ s with tasks := tasks }.spawn ⟨i, .heartbeat, .looping⟩).setNode i
        { s.nodes i with electionTask := .sleeping, heartbeatTask := some s.tasks.length }) A :=
    fun tasks htasks => ((h.setTasks htasks).spawn (t := ⟨i, .heartbeat, .looping⟩)
      ⟨hi, trivial⟩).act hA (ActsOf.refl i A) { h.nodes i hi with } (fun sends hs => by cases hs)
      h.leaderLogs
  unfold Cluster.startHeartbeat
  cases (s.nodes i).heartbeatTask with
  | none => exact hstart s.tasks h.tasks
  | some k =>
    refine hstart (s.tasks.modify k Cluster.cancelTask) fun t ht => ?_
    obtain ⟨j, hj⟩ := List.mem_iff_getElem?.mp ht
    rw [List.getElem?_modify] at hj
    obtain ⟨t', ht', rfl⟩ := Option.map_eq_some_iff.mp hj
    have hok := h.tasks t' (List.mem_of_getElem? ht')
    split
    · exact hok.cancel
    · exact hok

theorem Coupled.restart (h : Coupled cfg clean s A)
    (hA : Consistent LogEntry.term cfg.quorums A) {i : N} (hi : i ∈ cfg.nodes) (now : ℚ) :
    Coupled cfg clean (s.restart i (s.nodes i).stateFile now) A := by
  have hdrop : ∀ r : Rpc N C, Cluster.dropHandler i r = r ∨
      Cluster.dropHandler i r = { r with stage := .lost } := by
    intro r
    unfold Cluster.dropHandler
    split
    · split
      · exact Or.inr rfl
      · exact Or.inl rfl
    · split
      · exact Or.inr rfl
      · exact Or.inl rfl
    · exact Or.inl rfl
  have hkeep : KeepsRequests s.rpcs (s.rpcs.map (Cluster.dropHandler i)) := by
    refine keepsRequests_map fun r => ?_
    rcases hdrop r with heq | heq
    · rw [heq]
    · rw [heq]
      rfl
  have hrpcs : Coupled cfg clean { s with rpcs := s.rpcs.map (Cluster.dropHandler i) } A :=
    h.setRpcs hkeep (by
      intro r hr
      obtain ⟨r', hr', rfl⟩ := List.mem_map.mp hr
      rcases hdrop r' with heq | heq
      · rw [heq]
        exact h.rpcs r' hr'
      · rw [heq]
        exact { h.rpcs r' hr' with
          stepped := fun hs => by cases hs
          granted := fun hs => by cases hs
          accepted := fun hs => by cases hs })
  have htasks : Coupled cfg clean
      { s with
        rpcs := s.rpcs.map (Cluster.dropHandler i)
        tasks := s.tasks.map fun t => if t.node = i then Cluster.cancelTask t else t } A :=
    hrpcs.setTasks (by
      intro t ht
      obtain ⟨t', ht', rfl⟩ := List.mem_map.mp ht
      have hok := hrpcs.tasks t' ht'
      split
      · exact hok.cancel
      · exact hok)
  exact htasks.act hA (ActsOf.refl i A) ((h.nodes i hi).boot now) (fun sends hs => by cases hs)
    h.leaderLogs

theorem Simulated.propose (h : Coupled cfg clean s A)
    (hA : Consistent LogEntry.term cfg.quorums A) {i : N} (hi : i ∈ cfg.nodes)
    (hs : (s.nodes i).state = .leader) (command : C) (k : ℕ) {t : Task N C} (ht : t.node = i)
    (hpc : t.pc = .looping) :
    Simulated cfg clean A (((s.setNode i ((s.nodes i).appendCommand command)).spawn
      t).sendAppendEntries cfg k t) := by
  have hn := h.nodes i hi
  obtain ⟨Q, hQ, hL⟩ := hn.leads hs
  have hA' := hA.append hQ hL (e := (s.nodes i).newEntry command) hn.term_eq
  have h' := h.keepRole hA hi (append_acts hA _ hQ hL) (hn.appendCommand hA hs command)
    ⟨rfl, rfl, id, id⟩ (by
      intro T x hx
      by_cases hT : T = A.term i
      · subst hT
        simp only [append, Function.update_self]
        rw [← hn.log_eq]
        exact hn.indexed.append rfl
      · simp only [append, Function.update_of_ne hT] at hx ⊢
        exact h.leaderLogs T x hx)
  have hti : t.node ∈ cfg.nodes := ht ▸ hi
  exact ⟨_, (append_acts hA _ hQ hL).grows, hA',
    (h'.spawn ⟨hti, by rw [hpc]; trivial⟩).sendAppendEntries hA' k hti⟩

/-! ## Steps and runs -/

namespace Action

/-- No crash happens inside `_save_state`. -/
def savesWhole : Action N C → Bool
  | .crashSaving .. => false
  | _ => true

def crashFree : Action N C → Bool
  | .crash .. => false
  | .crashSaving .. => false
  | _ => true

omit [DecidableEq N] in
theorem savesWhole_of_crashFree {a : Action N C} (h : a.crashFree = true) :
    a.savesWhole = true := by
  cases a <;> first | rfl | cases h

end Action

theorem PcOk.of_getElem? (h : Coupled cfg clean s A) {k : ℕ} {t : Task N C}
    (ht : s.tasks[k]? = some t) : t.node ∈ cfg.nodes ∧ PcOk cfg s.rpcs t.node t.pc :=
  ⟨(h.tasks t (List.mem_of_getElem? ht)).node_mem, (h.tasks t (List.mem_of_getElem? ht)).pc⟩

omit [DecidableEq N] in
theorem Cluster.fresh_of_staleSuccess {k j : ℕ} {node : N} {kind : TaskKind}
    {o : RaftNode.Outgoing N C} {rest : List N} {m : Message N Response} {r : Rpc N C}
    (hstale : s.staleSuccess (.reply k) = false)
    (ht : s.tasks[k]? = some ⟨node, kind, .sending o j rest⟩) (hans : s.answerOf j = some m)
    (hr : s.rpcs[j]? = some r) (hsucc : m.payload.success = true)
    (he : o.entries.isEmpty = false) (hs : (s.nodes node).state = .leader) :
    r.message.term = (s.nodes node).persistent.currentTerm := by
  simpa [staleSuccess, ht, hr, hans, hsucc, he, hs] using hstale

theorem Simulated.step (h : Coupled cfg clean s A)
    (hA : Consistent LogEntry.term cfg.quorums A) {a : Action N C} {s' : Cluster N C}
    (hsave : a.savesWhole = true) (hstale : clean → s.staleSuccess a = false)
    (hstep : s.step cfg a = some s') : Simulated cfg clean A s' := by
  classical
  -- most coroutines act within the history they have
  have stay : ∀ {t : Cluster N C}, Coupled cfg clean t A → Simulated cfg clean A t :=
    fun ht => ⟨A, Extends.refl A, hA, ht⟩
  cases Cluster.stepped hstep with
  | electionTimeout hi hs hsleep => exact Simulated.electionTimeout h hA hi hs hsleep
  | electionEnds hi hsends =>
    exact Simulated.countVotes h hA (h.collectVotes hi hsends _)
  | becameLeader hi => exact stay (h.startHeartbeat hA hi)
  | propose hi hs => exact Simulated.propose h hA hi hs _ _ rfl rfl
  | heartbeat ht => exact stay (h.sendAppendEntries hA _ (PcOk.of_getElem? h ht).1)
  | heartbeatEnds ht => exact stay (h.setPc _ (PcOk.of_getElem? h ht).1 trivial)
  | reply ht hans =>
    obtain ⟨hi, hpc⟩ := PcOk.of_getElem? h ht
    refine Simulated.sendReturns h hA _ hi hpc (fun m hm => by rw [← hm, hans]) ?_
    rintro hc m r hm hr hsucc he hs
    obtain rfl := Option.some.inj hm
    exact Cluster.fresh_of_staleSuccess (hstale hc) ht hans hr hsucc he hs
  | noReply ht =>
    obtain ⟨hi, hpc⟩ := PcOk.of_getElem? h ht
    exact Simulated.sendReturns h hA _ hi hpc (fun m hm => by cases hm)
      fun _ m r hm => by cases hm
  | resumeSending ht =>
    obtain ⟨hi, hpc⟩ := PcOk.of_getElem? h ht
    exact stay (h.sendNext hA _ hi hpc)
  | resumeApplying ht =>
    have hi := (PcOk.of_getElem? h ht).1
    exact stay (h.applied hA _ hi (h.nodes _ hi).applyCommitted
      (RaftNode.keepsRole_applyCommitted _))
  | raise ht => exact stay (h.setPc _ (PcOk.of_getElem? h ht).1 trivial)
  | deliver hr => exact Simulated.deliver h hA hr _
  | @resumeHandling j now r hr hst =>
    have hok := h.rpcs r (List.mem_of_getElem? hr)
    refine Simulated.handle h hA hr ?_ now
    rw [(h.nodes r.dst (Config.mem_getOtherNodes.mp hok.target).1).term_eq]
    exact hok.stepped hst
  | resumeHandlerApplying hr hst => exact stay (h.handlerApplied hA hr hst)
  | raiseHandler hr =>
    refine stay (h.setStage hr ?_)
    exact { h.rpcs _ (List.mem_of_getElem? hr) with
      stepped := fun hs => by cases hs
      granted := fun hs => by cases hs
      accepted := fun hs => by cases hs }
  | crash hi => exact stay (h.restart hA hi _)
  | crashSaving => cases hsave

/-! ## Runs -/

theorem coupled_boot (cfg : Config N) (clean : Prop) (start : N → ℚ) :
    Coupled cfg clean (Cluster.boot start : Cluster N C) init where
  nodes i _ :=
    { term_eq := rfl
      log_eq := rfl
      indexed := indexed_nil
      voted := rfl
      file := rfl
      leads := fun hs => by cases hs
      leaderState := ⟨fun hs => (by cases hs), fun hs => (by cases hs)⟩
      stands := fun hs => by cases hs
      ballots := fun hs => by cases hs
      settled := fun _ => settled_zero _ _
      calls := fun _ call hm => by cases hm
      order := fun _ => ⟨rfl, le_rfl⟩
      matched := fun _ ls hls => by cases hls }
  broadcasts i _ sends hs := by cases hs
  rpcs r hr := by cases hr
  tasks t ht := by cases ht
  leaderLogs T x hx := by cases hx

/-- The steps a simulation follows; a `clean` one books no stale success. -/
def Followed (clean : Prop) (s : Cluster N C) (a : Action N C) : Prop :=
  a.savesWhole = true ∧ (clean → s.staleSuccess a = false)

theorem Simulated.run {s s' : Cluster N C} {A : History N C}
    (hA : Consistent LogEntry.term cfg.quorums A) (h : Coupled cfg clean s A)
    {acts : List (Action N C)} (hacts : s.EachStep cfg (Followed clean) acts)
    (hrun : s.run cfg acts = some s') : Simulated cfg clean A s' := by
  induction acts generalizing s A with
  | nil => exact ⟨A, Extends.refl A, hA, Option.some.inj hrun ▸ h⟩
  | cons a rest ih =>
    obtain ⟨t, ht, hrest⟩ := Transition.run_cons hrun
    obtain ⟨A', g, hA', h'⟩ := Simulated.step h hA hacts.1.1 hacts.1.2 ht
    obtain ⟨A'', g', hA'', h''⟩ := ih hA' h' (hacts.tail ht) hrest
    exact ⟨A'', g.trans g', hA'', h''⟩

theorem Simulated.boot {start : N → ℚ} {s : Cluster N C} {acts : List (Action N C)}
    (hacts : (Cluster.boot start).EachStep cfg (Followed clean) acts)
    (hrun : (Cluster.boot start).run cfg acts = some s) :
    ∃ A, Consistent LogEntry.term cfg.quorums A ∧ Coupled cfg clean s A := by
  obtain ⟨A, -, hA, h⟩ := Simulated.run consistent_init (coupled_boot cfg clean start) hacts hrun
  exact ⟨A, hA, h⟩

end Pynchronize
