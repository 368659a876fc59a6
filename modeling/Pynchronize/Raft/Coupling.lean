import Pynchronize.Lib.Records
import Pynchronize.Raft.Cluster
import Pynchronize.Raft.NodeSpec

/-!
# The cluster as a log replication

`Coupled cfg clean s A` ties a state of the cluster to a history `A` of the
abstract replication: what the nodes hold, what the RPCs ask and answer, and
what the suspended coroutines remember. What concerns commitment is asserted
under `clean` only.
-/

namespace Pynchronize

open Lib Lib.Replication

variable {N C : Type*} [DecidableEq N]

abbrev History (N C : Type*) := Replication N (LogEntry C)

def Config.quorums (cfg : Config N) : QuorumSystem N := QuorumSystem.majority cfg.nodes.toFinset

theorem Config.isQuorum_of_card {cfg : Config N} {Q : Finset N} (hQ : Q ⊆ cfg.nodes.toFinset)
    (hcard : cfg.getMajority ≤ Q.card) : cfg.quorums.IsQuorum Q := by
  refine ⟨hQ, ?_⟩
  rw [List.toFinset_card_of_nodup cfg.nodup]
  exact hcard

theorem Config.mem_getOtherNodes {cfg : Config N} {i j : N} :
    j ∈ cfg.getOtherNodes i ↔ j ∈ cfg.nodes ∧ j ≠ i := by
  simp [Config.getOtherNodes]

/-! ## What is asserted -/

section Assertions

variable (cfg : Config N) (clean : Prop) (A : History N C)

def IsCommitted (T p : ℕ) : Prop := Committed LogEntry.term cfg.quorums A T p

def IsSettled (T : ℕ) (l : List (LogEntry C)) (c : ℕ) : Prop :=
  Settled LogEntry.term cfg.quorums A T l c

/-- A committed entry at index `k` carries the command. -/
def Decided (k : ℕ) (command : C) : Prop :=
  ∃ T p e, IsCommitted cfg A T p ∧ 0 < k ∧ k - 1 ≤ p ∧ (A.leaderLog T)[k - 1]? = some e ∧
    e.command = command

structure NodeOk (i : N) (n : RaftNode N C) : Prop where
  term_eq : n.persistent.currentTerm = A.term i
  log_eq : n.persistent.log = A.log i
  indexed : Indexed n.persistent.log
  voted : n.persistent.votedFor = (A.vote (A.term i) i).map Prod.fst
  file : n.stateFile.getD {} = n.persistent
  leads : n.state = .leader →
    ∃ Q, A.elected (A.term i) = some (i, Q) ∧ A.leaderLog (A.term i) = A.log i
  leaderState : n.leaderState.isSome = true ↔ n.state = .leader
  stands : n.state = .candidate → A.campaign (A.term i) i = A.log i ∧
    (∃ w, A.vote (A.term i) i = some (i, w)) ∧ ∀ Q, A.elected (A.term i) ≠ some (i, Q)
  ballots : n.state = .candidate → ∀ v ∈ n.votesReceived.keys,
    v ∈ cfg.nodes ∧ ∃ w, A.vote (A.term i) v = some (i, w)
  settled : clean → IsSettled cfg A (A.term i) n.persistent.log n.volatile.commitIndex
  calls : clean → ∀ call ∈ n.applied, Decided cfg A call.1 call.2
  order : clean → n.applied.map Prod.fst = List.range' 1 n.volatile.lastApplied ∧
    n.volatile.lastApplied ≤ n.volatile.commitIndex
  matched : clean → ∀ ls, n.leaderState = some ls → ∀ f m, ls.matchIndex.get? f = some m →
    f ∈ cfg.getOtherNodes i ∧ m ≤ A.acked (A.term i) f

/-- The entries of an AppendEntries follow `prev` in the leader's log, or `prev` lies beyond its
    end and no follower finds the term 0 there. -/
def Slice (L : List (LogEntry C)) (prev prevTerm : ℕ) (entries : List (LogEntry C)) : Prop :=
  (prev ≤ L.length ∧ prevTerm = lastTerm LogEntry.term (L.take prev) ∧
    L.take prev ++ entries <+: L) ∨ (0 < prev ∧ prevTerm = 0 ∧ entries = [])

def RequestOk (src : N) (T : ℕ) : Request N C → Prop
  | .requestVote candidateId lastLogIndex lastLogTerm =>
    candidateId = src ∧ (∃ w, A.vote T src = some (src, w)) ∧
      lastLogIndex = (A.campaign T src).length ∧
      lastLogTerm = lastTerm LogEntry.term (A.campaign T src)
  | .appendEntries _ prev prevTerm entries leaderCommit =>
    (∃ Q, A.elected T = some (src, Q)) ∧ Slice (A.leaderLog T) prev prevTerm entries ∧
      (clean → leaderCommit ≤ prev + entries.length ∧
        IsSettled cfg A T (A.leaderLog T) leaderCommit)

/-- Stages that follow the successful check of an AppendEntries. -/
def Stage.accepted : Stage N → Bool
  | .applying => true
  | .answered response => response.payload.success
  | _ => false

def Stage.granted : Stage N → Bool
  | .answered response => response.payload.voteGranted
  | _ => false

structure RpcOk (r : Rpc N C) : Prop where
  target : r.dst ∈ cfg.getOtherNodes r.src
  request : RequestOk cfg clean A r.src r.message.term r.message.payload
  stepped : r.stage = .steppingDown → r.message.term ≤ A.term r.dst
  granted : r.stage.granted = true → ∃ w, A.vote r.message.term r.dst = some (r.src, w)
  accepted : r.stage.accepted = true →
    ∀ leaderId prev prevTerm entries leaderCommit,
      r.message.payload = .appendEntries leaderId prev prevTerm entries leaderCommit →
      prev + entries.length ≤ A.acked r.message.term r.dst

end Assertions

/-- The part of an RPC its handler does not change. -/
def Rpc.request (r : Rpc N C) : N × N × Message N (Request N C) := (r.src, r.dst, r.message)

def PcOk (cfg : Config N) (rpcs : List (Rpc N C)) (i : N) : Pc N C → Prop
  | .sending o j rest => (∃ T prevTerm leaderCommit, (rpcs[j]?).map Rpc.request =
      some (i, o.nodeId, ⟨i, T, .appendEntries i o.prevLogIndex prevTerm o.entries leaderCommit⟩)) ∧
      o.nodeId ∈ cfg.getOtherNodes i ∧ ∀ d ∈ rest, d ∈ cfg.getOtherNodes i
  | .steppingDown rest => ∀ d ∈ rest, d ∈ cfg.getOtherNodes i
  | _ => True

structure TaskOk (cfg : Config N) (rpcs : List (Rpc N C)) (t : Task N C) : Prop where
  node_mem : t.node ∈ cfg.nodes
  pc : PcOk cfg rpcs t.node t.pc

/-- A suspended `broadcast` waits for the answers to its own requests; while its node is still a
    candidate, they are of the current term. -/
def BroadcastOk (cfg : Config N) (rpcs : List (Rpc N C)) (i : N) (n : RaftNode N C) : Prop :=
  ∀ sends, n.electionTask = .broadcasting sends → ∀ send ∈ sends,
    ∃ T payload, (rpcs[send.2]?).map Rpc.request = some (i, send.1, ⟨i, T, payload⟩) ∧
      send.1 ∈ cfg.getOtherNodes i ∧ (n.state = .candidate → T = n.persistent.currentTerm)

structure Coupled (cfg : Config N) (clean : Prop) (s : Cluster N C) (A : History N C) : Prop where
  nodes : ∀ i ∈ cfg.nodes, NodeOk cfg clean A i (s.nodes i)
  broadcasts : ∀ i ∈ cfg.nodes, BroadcastOk cfg s.rpcs i (s.nodes i)
  rpcs : ∀ r ∈ s.rpcs, RpcOk cfg clean A r
  tasks : ∀ t ∈ s.tasks, TaskOk cfg s.rpcs t
  leaderLogs : ∀ T x, A.elected T = some x → Indexed (A.leaderLog T)

/-- Some history that grew out of `A` explains the state. -/
def Simulated (cfg : Config N) (clean : Prop) (A : History N C) (s : Cluster N C) : Prop :=
  ∃ A' : History N C, Extends A A' ∧ Consistent LogEntry.term cfg.quorums A' ∧
    Coupled cfg clean s A'

/-! ## What the growth of the history keeps -/

section Growth

variable {cfg : Config N} {clean : Prop} {A A' : History N C}

theorem Decided.mono {k : ℕ} {command : C} (h : Decided cfg A k command)
    (hA : Consistent LogEntry.term cfg.quorums A) (g : Extends A A') :
    Decided cfg A' k command := by
  obtain ⟨T, p, e, hc, hk, hp, he, hcmd⟩ := h
  obtain ⟨x, hx⟩ := Committed.elected hc hA
  exact ⟨T, p, e, Committed.mono hc hA g, hk, hp, getElem?_of_isPrefix (g.leaderLog hx) he, hcmd⟩

/-- One index is decided once. -/
theorem Decided.unique {k : ℕ} {command command' : C} (h : Decided cfg A k command)
    (h' : Decided cfg A k command') (hA : Consistent LogEntry.term cfg.quorums A) :
    command = command' := by
  obtain ⟨T, p, e, hc, -, hp, he, rfl⟩ := h
  obtain ⟨T', p', e', hc', -, hp', he', rfl⟩ := h'
  have hagree := Committed.agree hc hc' hA hp hp'
  rw [he, he'] at hagree
  rw [Option.some.inj hagree]

theorem Slice.mono {L L' : List (LogEntry C)} {prev prevTerm : ℕ} {entries : List (LogEntry C)}
    (h : Slice L prev prevTerm entries) (hL : L <+: L') : Slice L' prev prevTerm entries := by
  rcases h with ⟨hp, ht, he⟩ | h
  · refine Or.inl ⟨hp.trans hL.length_le, ?_, ?_⟩
    · rw [take_eq_of_isPrefix hL hp]
      exact ht
    · rw [take_eq_of_isPrefix hL hp]
      exact he.trans hL
  · exact Or.inr h

theorem RequestOk.mono {src : N} {T : ℕ} {request : Request N C}
    (h : RequestOk cfg clean A src T request) (hA : Consistent LogEntry.term cfg.quorums A)
    (g : Extends A A') : RequestOk cfg clean A' src T request := by
  cases request with
  | requestVote candidateId lastLogIndex lastLogTerm =>
    obtain ⟨hc, ⟨w, hw⟩, hi, ht⟩ := h
    have hcamp := g.campaign (hA.candidates hw).term_le
    exact ⟨hc, ⟨w, g.vote hw⟩, by rw [hcamp]; exact hi, by rw [hcamp]; exact ht⟩
  | appendEntries leaderId prev prevTerm entries leaderCommit =>
    obtain ⟨⟨Q, hQ⟩, hs, hc⟩ := h
    refine ⟨⟨Q, g.elected hQ⟩, hs.mono (g.leaderLog hQ), fun hclean => ?_⟩
    obtain ⟨hle, hset⟩ := hc hclean
    exact ⟨hle, (Settled.mono hset hA g le_rfl).of_isPrefix
      ((List.take_prefix _ _).trans (g.leaderLog hQ))⟩

theorem RpcOk.mono {r : Rpc N C} (h : RpcOk cfg clean A r)
    (hA : Consistent LogEntry.term cfg.quorums A) (g : Extends A A') : RpcOk cfg clean A' r where
  target := h.target
  request := h.request.mono hA g
  stepped hs := (h.stepped hs).trans (g.term _)
  granted hs := (h.granted hs).imp fun _ hw => g.vote hw
  accepted hs l p pt es lc hr := (h.accepted hs l p pt es lc hr).trans (g.acked _ _)

/-- The acts of another node leave a node's part of the coupling alone. -/
theorem NodeOk.mono {i j : N} {n : RaftNode N C} (h : NodeOk cfg clean A j n)
    (hA : Consistent LogEntry.term cfg.quorums A) (g : ActsOf i A A') (hj : j ≠ i) :
    NodeOk cfg clean A' j n := by
  have u := g.others j hj
  exact
    { term_eq := by rw [u.term]; exact h.term_eq
      log_eq := by rw [u.log]; exact h.log_eq
      indexed := h.indexed
      voted := by rw [u.term, u.vote]; exact h.voted
      file := h.file
      leads := by
        intro hs
        obtain ⟨Q, hQ, hL⟩ := h.leads hs
        rw [u.term, u.log]
        exact ⟨Q, (u.elected _ Q).mpr hQ, by rw [u.leaderLog _ Q hQ]; exact hL⟩
      leaderState := h.leaderState
      stands := by
        intro hs
        obtain ⟨hc, hv, he⟩ := h.stands hs
        rw [u.term, u.campaign, u.log, u.vote]
        exact ⟨hc, hv, fun Q hQ => he Q ((u.elected _ Q).mp hQ)⟩
      ballots := by
        intro hs v hv
        obtain ⟨hm, w, hw⟩ := h.ballots hs v hv
        rw [u.term]
        exact ⟨hm, w, g.grows.vote hw⟩
      settled := fun hc => by
        rw [u.term]
        exact Settled.mono (h.settled hc) hA g.grows le_rfl
      calls := fun hc call hm => (h.calls hc call hm).mono hA g.grows
      order := h.order
      matched := by
        intro hc ls hls f m hm
        obtain ⟨hf, hle⟩ := h.matched hc ls hls f m hm
        rw [u.term]
        exact ⟨hf, hle.trans (g.grows.acked _ _)⟩ }

end Growth

/-! ## Changing one part of the cluster -/

section Frames

variable {cfg : Config N} {clean : Prop} {s : Cluster N C} {A A' : History N C}

/-- Every request stays where it is in the list. -/
def KeepsRequests (rpcs rpcs' : List (Rpc N C)) : Prop :=
  ∀ (j : ℕ) x, (rpcs[j]?).map Rpc.request = some x → (rpcs'[j]?).map Rpc.request = some x

theorem PcOk.keep {rpcs rpcs' : List (Rpc N C)} {i : N} {pc : Pc N C} (h : PcOk cfg rpcs i pc)
    (hk : KeepsRequests rpcs rpcs') : PcOk cfg rpcs' i pc := by
  cases pc with
  | sending o j rest =>
    obtain ⟨⟨T, prevTerm, leaderCommit, hr⟩, hrest⟩ := h
    exact ⟨⟨T, prevTerm, leaderCommit, hk j _ hr⟩, hrest⟩
  | steppingDown rest => exact h
  | _ => trivial

theorem BroadcastOk.keep {rpcs rpcs' : List (Rpc N C)} {i : N} {n : RaftNode N C}
    (h : BroadcastOk cfg rpcs i n) (hk : KeepsRequests rpcs rpcs') : BroadcastOk cfg rpcs' i n := by
  intro sends hs send hmem
  obtain ⟨T, payload, hr, hrest⟩ := h sends hs send hmem
  exact ⟨T, payload, hk _ _ hr, hrest⟩

/-- Node `i` acts: the history grows by its acts, and the node changes with it. -/
theorem Coupled.act (h : Coupled cfg clean s A) (hA : Consistent LogEntry.term cfg.quorums A)
    {i : N} (g : ActsOf i A A') {n : RaftNode N C} (hn : NodeOk cfg clean A' i n)
    (hb : BroadcastOk cfg s.rpcs i n)
    (hL : ∀ T x, A'.elected T = some x → Indexed (A'.leaderLog T)) :
    Coupled cfg clean (s.setNode i n) A' where
  nodes j hj := by
    rcases eq_or_ne j i with rfl | hne
    · simpa [Cluster.setNode] using hn
    · simpa [Cluster.setNode, hne] using (h.nodes j hj).mono hA g hne
  broadcasts j hj := by
    rcases eq_or_ne j i with rfl | hne
    · simpa [Cluster.setNode] using hb
    · simpa [Cluster.setNode, hne] using h.broadcasts j hj
  rpcs r hr := (h.rpcs r hr).mono hA g.grows
  tasks := h.tasks
  leaderLogs := hL

theorem Coupled.setRpcs (h : Coupled cfg clean s A) {rpcs : List (Rpc N C)}
    (hk : KeepsRequests s.rpcs rpcs) (hr : ∀ r ∈ rpcs, RpcOk cfg clean A r) :
    Coupled cfg clean { s with rpcs := rpcs } A where
  nodes := h.nodes
  broadcasts i hi := (h.broadcasts i hi).keep hk
  rpcs := hr
  tasks t ht := ⟨(h.tasks t ht).node_mem, (h.tasks t ht).pc.keep hk⟩
  leaderLogs := h.leaderLogs

theorem Coupled.setTasks (h : Coupled cfg clean s A) {tasks : List (Task N C)}
    (ht : ∀ t ∈ tasks, TaskOk cfg s.rpcs t) : Coupled cfg clean { s with tasks := tasks } A :=
  { h with tasks := ht }

theorem Coupled.setPc (h : Coupled cfg clean s A) (k : ℕ) {t : Task N C} {pc : Pc N C}
    (ht : t.node ∈ cfg.nodes) (hpc : PcOk cfg s.rpcs t.node pc) :
    Coupled cfg clean (s.setPc k t pc) A := by
  refine h.setTasks fun t' ht' => ?_
  rcases List.mem_or_eq_of_mem_set ht' with hm | rfl
  · exact h.tasks t' hm
  · exact ⟨ht, hpc⟩

omit [DecidableEq N] in
theorem keepsRequests_append (rpcs more : List (Rpc N C)) : KeepsRequests rpcs (rpcs ++ more) := by
  intro j x hx
  cases hj : rpcs[j]? with
  | none => simp [hj] at hx
  | some r =>
    rw [hj] at hx
    rw [getElem?_append_of_some hj]
    exact hx

omit [DecidableEq N] in
theorem keepsRequests_set {rpcs : List (Rpc N C)} {j : ℕ} {r r' : Rpc N C} (hj : rpcs[j]? = some r)
    (hr : r'.request = r.request) : KeepsRequests rpcs (rpcs.set j r') := by
  intro k x hx
  rcases eq_or_ne j k with rfl | hne
  · rw [hj] at hx
    rw [getElem?_set_of_some hj, ← hx]
    simp [hr]
  · rw [List.getElem?_set_ne hne]
    exact hx

omit [DecidableEq N] in
theorem keepsRequests_map {rpcs : List (Rpc N C)} {f : Rpc N C → Rpc N C}
    (hf : ∀ r, (f r).request = r.request) : KeepsRequests rpcs (rpcs.map f) := by
  intro k x hx
  rw [List.getElem?_map, Option.map_map]
  rw [← hx]
  congr 1
  exact funext hf

theorem Coupled.setStage (h : Coupled cfg clean s A) {j : ℕ} {r : Rpc N C}
    (hj : s.rpcs[j]? = some r) {stage : Stage N}
    (hr : RpcOk cfg clean A { r with stage := stage }) :
    Coupled cfg clean (s.setStage j r stage) A := by
  refine h.setRpcs (keepsRequests_set hj rfl) fun r' hr' => ?_
  rcases List.mem_or_eq_of_mem_set hr' with hm | rfl
  · exact h.rpcs r' hm
  · exact hr

theorem Coupled.post (h : Coupled cfg clean s A) {src dst : N} {message : Message N (Request N C)}
    (hr : RpcOk cfg clean A ⟨src, dst, message, .inFlight⟩) :
    Coupled cfg clean (s.post src dst message) A := by
  refine h.setRpcs (keepsRequests_append _ _) fun r' hr' => ?_
  rcases List.mem_append.mp hr' with hm | hm
  · exact h.rpcs r' hm
  · rw [List.mem_singleton.mp hm]
    exact hr

end Frames

end Pynchronize
