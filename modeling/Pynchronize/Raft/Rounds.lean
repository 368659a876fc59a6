import Pynchronize.Raft.CatchUp
import Pynchronize.Raft.Commitment

/-!
# Rounds that only some nodes answer

A call of `_send_append_entries` goes on when a node does not answer. If those
in `M` do, and they are a majority, each round brings each of them nearer to the
leader's log (`Within`), and when all have it the round commits the whole log
(`round_run`).
-/

namespace Pynchronize

open Lib

variable {N C : Type*} [DecidableEq N]

/-- The configuration with other nodes. -/
def Config.among (cfg : Config N) (M : List N) (hM : M.Nodup) : Config N :=
  { cfg with nodes := M, nodup := hM }

/-! ## A follower on its way to the leader's log -/

section Followers

variable {L : List (LogEntry C)} {f : N} {ls : LeaderState N} {n : RaftNode N C}

/-- The follower has the leader's log, and the leader knows it. -/
structure Caught (L : List (LogEntry C)) (f : N) (ls : LeaderState N) (n : RaftNode N C) :
    Prop where
  log : n.persistent.log.take L.length = L
  nextIndex : ls.nextIndex.get? f = some (L.length + 1)
  matchIndex : ls.matchIndex.get? f = some L.length

/-- After `k` more rounds at most the follower has the leader's log, and the leader knows it. -/
def Within (L : List (LogEntry C)) (k : ℕ) (f : N) (ls : LeaderState N) (n : RaftNode N C) :
    Prop :=
  Caught L f ls n ∨ ∃ next, ls.nextIndex.get? f = some next ∧ 1 ≤ next ∧ next ≤ L.length ∧
    next ≤ k ∧ Matching n.persistent.log L

theorem Within.caught (h : Within L 0 f ls n) : Caught L f ls n := by
  rcases h with h | ⟨next, -, hpos, -, hle, -⟩
  · exact h
  · omega

theorem Within.mono {k k' : ℕ} (h : Within L k f ls n) (hk : k ≤ k') : Within L k' f ls n := by
  rcases h with h | ⟨next, hnext, hpos, hle, hlt, hmatch⟩
  · exact Or.inl h
  · exact Or.inr ⟨next, hnext, hpos, hle, hlt.trans hk, hmatch⟩

theorem Within.of_same {ls' : LeaderState N} {n' : RaftNode N C} {k : ℕ} (h : Within L k f ls n)
    (hsame : SameFor f ls ls') (hn : n' = n) : Within L k f ls' n' := by
  subst hn
  rcases h with ⟨hlog, hnext, hmatch⟩ | ⟨next, hnext, hrest⟩
  · exact Or.inl ⟨hlog, hsame.1.trans hnext, hsame.2.trans hmatch⟩
  · exact Or.inr ⟨next, hsame.1.trans hnext, hrest⟩

end Followers

section Exchanges

variable {cfg : Config N} {i f : N} {now : ℚ} {L : List (LogEntry C)} {T : ℕ}
  {nodes : N → RaftNode N C} {ls : LeaderState N}

variable (ls) in
theorem RaftNode.nextIndex_book {o : RaftNode.Outgoing N C} (ho : o.entries ≠ []) :
    (RaftNode.book ls o true).nextIndex.get? o.nodeId =
      some (o.prevLogIndex + o.entries.length + 1) := by
  have hempty : o.entries.isEmpty = false := List.isEmpty_eq_false_iff.mpr ho
  unfold RaftNode.book
  rw [if_pos rfl, hempty, if_neg Bool.false_ne_true]
  exact Dict.get?_set_self ..

omit [DecidableEq N] in
/-- A node has the entries of its own log. -/
theorem RaftNode.matchesPrev_of_own {n : RaftNode N C} {prev prevTerm : ℕ}
    (hle : prev ≤ n.persistent.log.length)
    (h : ∀ e, 0 < prev → n.persistent.log[prev - 1]? = some e → prevTerm = e.term) :
    n.matchesPrev prev prevTerm = true := by
  cases prev with
  | zero => rfl
  | succ p =>
    have he : n.persistent.log[p]? = some (n.persistent.log.get ⟨p, hle⟩) :=
      List.getElem?_eq_getElem hle
    unfold matchesPrev
    rw [if_pos (Nat.succ_pos p), getLogEntry_succ, he]
    exact decide_eq_true (h _ (Nat.succ_pos p) he).symm

variable (now) in
/-- What is sent to a follower that has the whole log changes nothing any more. -/
theorem Leading.exchange_caught (h : Leading cfg i L T nodes ls) (hf : f ∈ cfg.getOtherNodes i)
    (hc : Caught L f ls (nodes f)) :
    Caught L f (RaftNode.book ls (exchange i now nodes ls f).sent
      (exchange i now nodes ls f).response.payload.success)
      (Pynchronize.exchanged i now nodes ls f f) := by
  have hterm : (nodes f).persistent.currentTerm ≤ (nodes i).persistent.currentTerm := by
    rw [h.term]
    exact h.terms f hf
  obtain ⟨prevTerm, hmessage, hprevTerm⟩ := (nodes i).message_of_nextIndex (i := i) hc.nextIndex
  have hsent := (nodes i).outgoing_of_nextIndex hc.nextIndex
  have hnone : ((nodes i).outgoing ls f).entries = [] := by
    rw [hsent]
    exact if_neg (by rw [h.log]; omega)
  have hm : (nodes f).matchesPrev L.length prevTerm = true := by
    refine RaftNode.matchesPrev_of_take_eq (n := nodes i) ?_ ?_
    · rw [hc.log, h.log, List.take_length]
    · exact RaftNode.matchesPrev_of_own (by rw [h.log]) hprevTerm
  have hreceiver := exchanged_receiver now nodes ls (Config.mem_getOtherNodes.mp hf).2
  have hresponse : (exchange i now nodes ls f).response = ((nodes f).answer f now
    ((nodes i).appendEntriesMessage i ((nodes i).outgoing ls f))).2 := rfl
  rw [hmessage, hnone] at hreceiver hresponse
  obtain ⟨a, calls, hanswer⟩ := RaftNode.answer_appendEntries_of_matches f now i i []
    (nodes i).volatile.commitIndex hterm hm
  have hbook : RaftNode.book ls (exchange i now nodes ls f).sent
      (exchange i now nodes ls f).response.payload.success = ls := by
    have hsuccess : (exchange i now nodes ls f).response.payload.success = true := by
      rw [hresponse]
      exact congrArg (fun r => r.2.payload.success) hanswer
    have hempty : (exchange i now nodes ls f).sent.entries.isEmpty = true :=
      List.isEmpty_iff.mpr hnone
    unfold RaftNode.book
    rw [if_pos hsuccess, if_pos hempty]
  rw [hbook]
  refine ⟨?_, hc.nextIndex, hc.matchIndex⟩
  rw [hreceiver]
  exact (congrArg (List.take L.length) (RaftNode.log_answer_of_matches hterm hm)).trans hc.log

variable (now) in
/-- A round that a follower answers brings it nearer. -/
theorem Leading.exchange_within (h : Leading cfg i L T nodes ls) (hf : f ∈ cfg.getOtherNodes i)
    (hL : Indexed L) {k : ℕ} (hw : Within L (k + 1) f ls (nodes f)) :
    Within L k f (RaftNode.book ls (exchange i now nodes ls f).sent
      (exchange i now nodes ls f).response.payload.success)
      (Pynchronize.exchanged i now nodes ls f f) := by
  rcases hw with hc | ⟨next, hindex, hpos, hle, hk, hmatch⟩
  · exact Or.inl (h.exchange_caught now hf hc)
  · have hentries := ((nodes i).entries_of_nextIndex hindex hpos
      (by rw [h.log]; omega)).1
    rw [h.log] at hentries
    have hprogress := h.progress now hf hL hindex hpos (by omega) hmatch
    cases hprogress with
    | refused hfail hnext hlog hindex' =>
      exact Or.inr ⟨next - 1, hindex', by omega, by omega, by omega, hlog ▸ hmatch⟩
    | accepted hsucc hlog hmatch' =>
      have hsent : (exchange i now nodes ls f).sent = (nodes i).outgoing ls f := rfl
      have hnode : (exchange i now nodes ls f).sent.nodeId = f := by
        rw [hsent, (nodes i).outgoing_of_nextIndex hindex]
      have hprev : (exchange i now nodes ls f).sent.prevLogIndex = next - 1 := by
        rw [hsent, (nodes i).outgoing_of_nextIndex hindex]
      have hsome : (exchange i now nodes ls f).sent.entries ≠ [] := by
        intro hnil
        rw [← hsent, hnil, List.length_nil] at hentries
        omega
      refine Or.inl ⟨hlog, ?_, hmatch' hsome⟩
      have hbook := RaftNode.nextIndex_book ls hsome
      rw [hnode, hprev, hsent, hentries] at hbook
      rw [hsucc, hsent]
      exact hbook

/-- The exchange with one node is nothing to another. -/
theorem within_exchange_of_ne {d : N} {k : ℕ} (hw : Within L k f ls (nodes f)) (hfi : f ≠ i)
    (hfd : f ≠ d) : Within L k f (RaftNode.book ls (exchange i now nodes ls d).sent
      (exchange i now nodes ls d).response.payload.success)
      (Pynchronize.exchanged i now nodes ls d f) :=
  hw.of_same (RaftNode.get?_book_of_ne hfd.symm _) (exchanged_of_ne hfi hfd)

end Exchanges

/-! ## What the leader commits -/

namespace RaftNode

variable {n : RaftNode N C} {L : List (LogEntry C)} {ls : LeaderState N} {cfg : Config N}

/-- The leader's own log and those of the other nodes of `M` count. -/
theorem matchCount_ge {i : N} {M : List N} (hM : M.Nodup) (hi : i ∈ M)
    (hmatch : ∀ f ∈ M, f ≠ i → ls.matchIndex.get? f = some L.length) :
    M.length ≤ matchCount ls L.length := by
  have hsub : M.erase i ⊆
      (ls.matchIndex.items.filter fun kv => kv.2 ≥ L.length).map Prod.fst := by
    intro f hf
    have hmem := (hM.mem_erase_iff.mp hf)
    refine List.mem_map.mpr ⟨(f, L.length), List.mem_filter.mpr ⟨?_, by simp⟩, rfl⟩
    exact (Dict.mem_items_iff _ _ _).mpr (hmatch f hmem.2 hmem.1)
  have hlen := ((hM.erase i).subperm hsub).length_le
  rw [List.length_map, List.length_erase_of_mem hi] at hlen
  unfold matchCount
  have := List.length_pos_of_mem hi
  omega

omit [DecidableEq N] in
theorem CommitOk.applyRounds (h : CommitOk n) (k : ℕ) : Advances n (RaftNode.applyRounds k n) := by
  induction k generalizing n with
  | zero => exact Advances.refl h
  | succ k ih => exact h.applyCommitted.trans (ih h.applyCommitted.ok)

omit [DecidableEq N] in
theorem applyRounds_applies {k : ℕ} (hk : n.volatile.commitIndex - n.volatile.lastApplied ≤ k) :
    n.volatile.commitIndex ≤ (RaftNode.applyRounds k n).volatile.lastApplied := by
  induction k generalizing n with
  | zero =>
    unfold RaftNode.applyRounds
    omega
  | succ k ih =>
    obtain ⟨hcommit, hadvances⟩ := n.applyCommitted_advances
    rw [← hcommit]
    exact ih (by split at hadvances <;> omega)

omit [DecidableEq N] in
theorem CommitOk.commitAll (h : CommitOk n) (cfg : Config N) : CommitOk (n.commitAll cfg) := by
  have hok := (h.tryCommit cfg).ok
  unfold RaftNode.commitAll
  split
  · exact (hok.applyRounds _).ok
  · exact hok

omit [DecidableEq N] in
/-- A leader whose last entry is of its term and on a majority commits and applies its log. -/
theorem CommitOk.commitAll_commits (h : CommitOk n) (hs : n.state = .leader)
    (hls : n.leaderState = some ls) {e : LogEntry C} (hlast : n.persistent.log.getLast? = some e)
    (hterm : e.term = n.persistent.currentTerm)
    (hmajority : cfg.getMajority ≤ matchCount ls n.persistent.log.length) :
    (n.commitAll cfg).volatile.commitIndex = n.persistent.log.length ∧
      (n.commitAll cfg).volatile.lastApplied = n.persistent.log.length := by
  have hpos : 0 < n.persistent.log.length :=
    List.length_pos_iff.mpr fun hnil => by rw [hnil] at hlast; cases hlast
  obtain ⟨p, hp⟩ : ∃ p, n.persistent.log.length = p + 1 := ⟨_, (Nat.succ_pred hpos.ne').symm⟩
  have hentry : n.getLogEntry n.persistent.log.length = some e := by
    rw [hp, getLogEntry_succ, ← hlast, List.getLast?_eq_getElem?, hp]
    rfl
  have hcommits : n.commits cfg n.persistent.log.length = true := by
    unfold commits
    rw [hs, hls]
    refine Bool.or_eq_true_iff.mpr (Or.inr ?_)
    rw [Nat.add_sub_cancel_left]
    refine List.any_eq_true.mpr ⟨n.persistent.log.length, List.mem_range'_1.mpr ⟨le_rfl, by omega⟩,
      ?_⟩
    rw [hentry]
    simp [hterm, hmajority]
  obtain ⟨hindex, happlies⟩ := h.tryCommit_commits hcommits
  have hge : n.persistent.log.length ≤ (n.commitAll cfg).volatile.lastApplied := by
    unfold RaftNode.commitAll
    cases hsuspended : (n.tryCommit cfg).2 with
    | true =>
      rw [if_pos rfl]
      exact hindex.trans (applyRounds_applies le_rfl)
    | false =>
      rw [if_neg Bool.false_ne_true]
      exact happlies hsuspended
  have hok := h.commitAll cfg
  have hcommitLe := hok.commit_le
  have happliedLe := hok.applied_le
  obtain ⟨v, calls, heq⟩ := n.commitAll_eq cfg
  have hlen : (n.commitAll cfg).persistent.log.length = n.persistent.log.length := by rw [heq]; rfl
  exact ⟨by omega, by omega⟩

end RaftNode

/-! ## A round in the runs of the cluster -/

section Run

variable {cfg : Config N} {M : List N} {hM : M.Nodup} {i : N} {L : List (LogEntry C)} {T : ℕ}
  {nodes : N → RaftNode N C} {ls : LeaderState N}

/-- Node `i` leads the nodes in `M`, and `rounds f` more rounds bring `f` to its log. -/
structure Spreading (cfg : Config N) (M : List N) (hM : M.Nodup) (i : N) (L : List (LogEntry C))
    (T : ℕ) (rounds : N → ℕ) (nodes : N → RaftNode N C) (ls : LeaderState N) : Prop where
  leading : Leading (cfg.among M hM) i L T nodes ls
  ok : (nodes i).CommitOk
  within : ∀ f ∈ M, f ≠ i → Within L (rounds f) f ls (nodes f)

theorem Leading.withVolatile (h : Leading cfg i L T nodes ls) (v : VolatileState)
    (calls : List (ℕ × C)) :
    Leading cfg i L T (Function.update nodes i ((nodes i).withVolatile v calls)) ls := by
  have hself : Function.update nodes i ((nodes i).withVolatile v calls) i =
      (nodes i).withVolatile v calls := Function.update_self ..
  refine ⟨by rw [hself]; exact h.state, by rw [hself]; exact h.leaderState,
    by rw [hself]; exact h.log, by rw [hself]; exact h.term, fun j hj => ?_⟩
  rw [Function.update_of_ne (Config.mem_getOtherNodes.mp hj).2]
  exact h.terms j hj

theorem Spreading.commitAll {rounds : N → ℕ} (h : Spreading cfg M hM i L T rounds nodes ls) :
    Spreading cfg M hM i L T rounds
      (Function.update nodes i ((nodes i).commitAll cfg)) ls := by
  obtain ⟨v, calls, heq⟩ := (nodes i).commitAll_eq cfg
  refine ⟨heq ▸ h.leading.withVolatile v calls, ?_, fun f hf hfi => ?_⟩
  · rw [Function.update_self]
    exact h.ok.commitAll cfg
  · rw [Function.update_of_ne hfi]
    exact h.within f hf hfi

/-- The exchange with a node of `M` in the loop. -/
theorem Spreading.exchanged {m : ℕ} {d : N} {rest : List N} (now : ℚ) (hL : Indexed L)
    (h : Spreading cfg M hM i L T (fun f => if f ∈ d :: rest then m + 1 else m) nodes ls)
    (hd : d ∈ M) (hdi : d ≠ i) (hrest : d ∉ rest) :
    Spreading cfg M hM i L T (fun f => if f ∈ rest then m + 1 else m)
      (Pynchronize.exchanged i now nodes ls d)
      (RaftNode.book ls (exchange i now nodes ls d).sent
        (exchange i now nodes ls d).response.payload.success) := by
  have hother : d ∈ (cfg.among M hM).getOtherNodes i := Config.mem_getOtherNodes.mpr ⟨hd, hdi⟩
  refine ⟨h.leading.exchanged now hother, ?_, fun f hf hfi => ?_⟩
  · rw [exchanged_self]
    exact RaftNode.Advances.ok (n := nodes i) (h.ok.of_eq rfl rfl rfl)
  · rcases eq_or_ne f d with rfl | hne
    · have hw := h.within f hf hfi
      rw [if_pos (List.mem_cons_self ..)] at hw
      rw [if_neg hrest]
      exact h.leading.exchange_within now hother hL hw
    · have hw := h.within f hf hfi
      have hiff : f ∈ d :: rest ↔ f ∈ rest := by simp [hne]
      simp only [hiff] at hw
      exact within_exchange_of_ne hw hfi hne

/-- The leader commits its log when all nodes of `M` have it. -/
theorem Spreading.commits (hi : i ∈ M) (hmajority : cfg.getMajority ≤ M.length)
    (h : Spreading cfg M hM i L T (fun _ => 0) nodes ls) {e : LogEntry C}
    (hlast : L.getLast? = some e) (hterm : e.term = T) :
    ((nodes i).commitAll cfg).volatile.commitIndex = L.length ∧
      ((nodes i).commitAll cfg).volatile.lastApplied = L.length := by
  have hcount := RaftNode.matchCount_ge hM hi fun f hf hfi => (h.within f hf hfi).caught.matchIndex
  have hlog := h.leading.log
  rw [← hlog] at hcount hlast ⊢
  exact h.ok.commitAll_commits h.leading.state h.leading.leaderState hlast
    (hterm.trans h.leading.term.symm) (hmajority.trans hcount)

namespace Cluster

variable (cfg) in
/-- `_try_commit` runs to its end. -/
theorem tryCommit_run {s : Cluster N C} {k : ℕ} (hk : k < s.tasks.length) (i : N)
    (kind : TaskKind) (pc : Pc N C) :
    ∃ acts s', (∀ a ∈ acts, a.crashFree = true) ∧
      (s.applied k ⟨i, kind, pc⟩ ((s.nodes i).tryCommit cfg)).run cfg acts = some s' ∧
      s'.nodes = Function.update s.nodes i ((s.nodes i).commitAll cfg) ∧
      s'.tasks = s.tasks.set k ⟨i, kind, afterSend kind⟩ := by
  have htask : (s.applied k ⟨i, kind, pc⟩ ((s.nodes i).tryCommit cfg)).tasks =
      s.tasks.set k ⟨i, kind, if ((s.nodes i).tryCommit cfg).2 then .applying
        else afterSend kind⟩ := rfl
  unfold RaftNode.commitAll
  cases hsuspended : ((s.nodes i).tryCommit cfg).2 with
  | false =>
    rw [hsuspended] at htask
    exact ⟨[], _, List.forall_mem_nil _, rfl, rfl, htask⟩
  | true =>
    rw [hsuspended] at htask
    obtain ⟨acts, s', hfree, hrun, hnodes, hdone⟩ :=
      applied_run cfg (htask ▸ List.getElem?_set_self hk) _ le_rfl
    refine ⟨acts, s', hfree, hrun, hnodes.trans ?_, ?_⟩
    · have hself : (s.applied k ⟨i, kind, pc⟩ ((s.nodes i).tryCommit cfg)).nodes i =
          ((s.nodes i).tryCommit cfg).1 := nodes_setNode_self s i _
      rw [hself]
      exact Function.update_idem ..
    · rw [hdone, htask]
      exact List.set_set ..

/-- The loop has sent to `d` and waits. -/
theorem sendNext_cons {s : Cluster N C} (k : ℕ) {i : N} (d : N) (kind : TaskKind) (pc : Pc N C)
    (rest : List N) (hls : (s.nodes i).leaderState = some ls) :
    s.sendNext cfg k ⟨i, kind, pc⟩ (d :: rest) =
      (s.post i d ((s.nodes i).appendEntriesMessage i ((s.nodes i).outgoing ls d))).setPc k
        ⟨i, kind, pc⟩ (.sending ((s.nodes i).outgoing ls d) s.rpcs.length rest) := by
  unfold sendNext
  dsimp only
  rw [hls]

/-- The loop sends to a node of `M`, which answers. -/
theorem sendNext_answered (now : ℚ) {s : Cluster N C} {k : ℕ} (hk : k < s.tasks.length) {i d : N}
    (kind : TaskKind) (pc : Pc N C) (rest : List N)
    (h : Leading (cfg.among M hM) i L T s.nodes ls) (hd : d ∈ (cfg.among M hM).getOtherNodes i) :
    ∃ (acts : List (Action N C)) (t : Cluster N C) (pc' : Pc N C),
      (∀ a ∈ acts, a.crashFree = true) ∧
      (s.sendNext cfg k ⟨i, kind, pc⟩ (d :: rest)).run cfg acts =
        some (t.sendNext cfg k ⟨i, kind, pc'⟩ rest) ∧
      t.nodes = exchanged i now s.nodes ls d ∧ k < t.tasks.length ∧
      ∀ k' ≠ k, t.tasks[k']? = s.tasks[k']? := by
  have hne : i ≠ d := (Config.mem_getOtherNodes.mp hd).2.symm
  rw [sendNext_cons k d kind pc rest h.leaderState]
  generalize ho : (s.nodes i).outgoing ls d = o
  generalize hmessage : (s.nodes i).appendEntriesMessage i o = message
  generalize hposted : (s.post i d message).setPc k ⟨i, kind, pc⟩
    (.sending o s.rpcs.length rest) = posted
  have hnodes : posted.nodes = s.nodes := by rw [← hposted]; rfl
  have hrpc : posted.rpcs[s.rpcs.length]? = some ⟨i, d, message, .inFlight⟩ := by
    rw [← hposted]
    exact getElem?_post s i d message
  have htask : posted.tasks[k]? = some ⟨i, kind, .sending o s.rpcs.length rest⟩ := by
    rw [← hposted]
    exact List.getElem?_set_self hk
  obtain ⟨acts, hfree, hacts⟩ := send_run cfg htask hrpc rfl now
  rw [hnodes] at hacts
  -- the answer is of the leader's term, so it is booked
  have hterm : ((s.nodes d).answer d now message).2.term ≤ (s.nodes i).persistent.currentTerm := by
    rw [h.term, ← hmessage, ← ho]
    refine (RaftNode.answer_term ?_).2.le.trans h.term.le
    rw [h.term]
    exact h.terms d hd
  have hbooked := RaftNode.handleResponse_of_le o h.leaderState hterm
  have hexchanged : exchanged i now s.nodes ls d = Function.update
      (Function.update s.nodes d ((s.nodes d).answer d now message).1) i
      { s.nodes i with
        leaderState := some (RaftNode.book ls o
          ((s.nodes d).answer d now message).2.payload.success) } := by
    rw [← hmessage, ← ho]
    rfl
  rw [hexchanged]
  generalize (s.nodes d).answer d now message = result at hacts hbooked ⊢
  generalize hanswered : posted.withHandler s.rpcs.length ⟨i, d, message, .inFlight⟩ result.1
    (.answered result.2) = answered at hacts
  have hnodes' : answered.nodes = Function.update s.nodes d result.1 := by
    rw [← hanswered, ← hnodes]
    rfl
  have hself : answered.nodes i = s.nodes i := by rw [hnodes', Function.update_of_ne hne]
  have hk' : k < answered.tasks.length := by
    rw [← hanswered]
    exact (List.getElem?_eq_some_iff.mp htask).1
  unfold sendReturns at hacts
  dsimp only at hacts
  rw [hself, hbooked] at hacts
  refine ⟨acts, _, _, hfree, hacts, ?_, hk', fun k' hne => ?_⟩
  · show Function.update answered.nodes i _ = _
    rw [hnodes']
  · show answered.tasks[k']? = _
    rw [← hanswered, ← hposted]
    exact List.getElem?_set_ne hne.symm

variable (cfg) in
/-- The loop sends to a node that does not answer. -/
theorem sendNext_unanswered {s : Cluster N C} {k : ℕ} (hk : k < s.tasks.length) {i d : N}
    (kind : TaskKind) (pc : Pc N C) (rest : List N) (hls : (s.nodes i).leaderState = some ls) :
    ∃ (t : Cluster N C) (pc' : Pc N C),
      (s.sendNext cfg k ⟨i, kind, pc⟩ (d :: rest)).run cfg [.noReply k] =
        some (t.sendNext cfg k ⟨i, kind, pc'⟩ rest) ∧
      t.nodes = s.nodes ∧ k < t.tasks.length ∧ ∀ k' ≠ k, t.tasks[k']? = s.tasks[k']? := by
  rw [sendNext_cons k d kind pc rest hls]
  generalize (s.nodes i).outgoing ls d = o
  generalize (s.nodes i).appendEntriesMessage i o = message
  generalize hposted : (s.post i d message).setPc k ⟨i, kind, pc⟩
    (.sending o s.rpcs.length rest) = posted
  have hnodes : posted.nodes = s.nodes := by rw [← hposted]; rfl
  have htask : posted.tasks[k]? = some ⟨i, kind, .sending o s.rpcs.length rest⟩ := by
    rw [← hposted]
    exact List.getElem?_set_self hk
  have hstep : posted.step cfg (.noReply k) = some ((posted.setNode i (posted.nodes i)).sendNext cfg
      k ⟨i, kind, .sending o s.rpcs.length rest⟩ rest) := by
    simp only [step, htask]
    rfl
  refine ⟨_, _, Transition.run_single hstep, ?_, (List.getElem?_eq_some_iff.mp htask).1,
    fun k' hne => ?_⟩
  · exact (Function.update_eq_self i posted.nodes).trans hnodes
  · show posted.tasks[k']? = _
    rw [← hposted]
    exact List.getElem?_set_ne hne.symm

/-- The loop can run to its end with the nodes of `M` answering, and each of them comes nearer; if
    all have the log, it is committed and applied. -/
theorem round_run (now : ℚ) (hi : i ∈ M) (hL : Indexed L) (hmajority : cfg.getMajority ≤ M.length)
    {e : LogEntry C} (hlast : L.getLast? = some e) (hterm : e.term = T) {s : Cluster N C} {k : ℕ}
    (hk : k < s.tasks.length) (kind : TaskKind) (pc : Pc N C) {targets : List N}
    (hnodup : targets.Nodup) (hself : i ∉ targets) (m : ℕ)
    (h : Spreading cfg M hM i L T (fun f => if f ∈ targets then m + 1 else m) s.nodes ls) :
    ∃ acts s' ls', (∀ a ∈ acts, a.crashFree = true) ∧
      (s.sendNext cfg k ⟨i, kind, pc⟩ targets).run cfg acts = some s' ∧
      s'.tasks[k]? = some ⟨i, kind, afterSend kind⟩ ∧
      (∀ k' ≠ k, s'.tasks[k']? = s.tasks[k']?) ∧
      Spreading cfg M hM i L T (fun _ => m) s'.nodes ls' ∧
      (∀ f ∉ M, s'.nodes f = s.nodes f) ∧
      (m = 0 → (s'.nodes i).volatile.commitIndex = L.length ∧
        (s'.nodes i).volatile.lastApplied = L.length) := by
  induction targets generalizing s pc ls with
  | nil =>
    obtain ⟨acts, s', hfree, hrun, hnodes, htask⟩ := tryCommit_run cfg hk i kind pc
    have h : Spreading cfg M hM i L T (fun _ => m) s.nodes ls := h
    refine ⟨acts, s', ls, hfree, hrun, htask ▸ List.getElem?_set_self hk,
      fun k' hne => htask ▸ List.getElem?_set_ne hne.symm, hnodes ▸ h.commitAll, fun f hf => ?_,
      fun hm => ?_⟩
    · rw [hnodes, Function.update_of_ne (ne_of_mem_of_not_mem hi hf).symm]
    · subst hm
      rw [hnodes, Function.update_self]
      exact h.commits hi hmajority hlast hterm
  | cons d rest ih =>
    obtain ⟨hd, hnodup⟩ := List.nodup_cons.mp hnodup
    have hdi : d ≠ i := fun heq => hself (heq ▸ List.mem_cons_self ..)
    have hrest : i ∉ rest := fun hmem => hself (List.mem_cons_of_mem _ hmem)
    by_cases hdM : d ∈ M
    · obtain ⟨acts, t, pc', hfree, hrun, hnodes, hk', htasks⟩ :=
        sendNext_answered now hk kind pc rest h.leading (Config.mem_getOtherNodes.mpr ⟨hdM, hdi⟩)
      have hnext := h.exchanged now hL hdM hdi hd
      rw [← hnodes] at hnext
      obtain ⟨more, s', ls', hfree', hrun', htask, htasks', hs', hothers, hdone⟩ :=
        ih hk' pc' hnodup hrest hnext
      refine ⟨acts ++ more, s', ls', List.forall_mem_append.mpr ⟨hfree, hfree'⟩,
        (Transition.run_append_of_run hrun more).trans hrun', htask,
        fun k' hne => (htasks' k' hne).trans (htasks k' hne), hs', fun f hf => ?_, hdone⟩
      rw [hothers f hf, hnodes, exchanged_of_ne (ne_of_mem_of_not_mem hi hf).symm
        (ne_of_mem_of_not_mem hdM hf).symm]
    · obtain ⟨t, pc', hrun, hnodes, hk', htasks⟩ :=
        sendNext_unanswered cfg hk kind pc rest h.leading.leaderState
      have hnext : Spreading cfg M hM i L T (fun f => if f ∈ rest then m + 1 else m) t.nodes
          ls := by
        rw [hnodes]
        refine ⟨h.leading, h.ok, fun f hf hfi => ?_⟩
        have hw := h.within f hf hfi
        have hne : f ≠ d := fun heq => hdM (heq ▸ hf)
        have hiff : f ∈ d :: rest ↔ f ∈ rest := by simp [hne]
        simpa only [hiff] using hw
      obtain ⟨more, s', ls', hfree', hrun', htask, htasks', hs', hothers, hdone⟩ :=
        ih hk' pc' hnodup hrest hnext
      refine ⟨.noReply k :: more, s', ls', List.forall_mem_cons.mpr ⟨rfl, hfree'⟩,
        (Transition.run_append_of_run hrun more).trans hrun', htask,
        fun k' hne => (htasks' k' hne).trans (htasks k' hne), hs', fun f hf => ?_, hdone⟩
      rw [hothers f hf, hnodes]

/-- One turn of `_leader_heartbeat_loop`. -/
theorem heartbeat_run (now : ℚ) (hi : i ∈ M) (hsub : ∀ f ∈ M, f ∈ cfg.nodes) (hL : Indexed L)
    (hmajority : cfg.getMajority ≤ M.length) {e : LogEntry C} (hlast : L.getLast? = some e)
    (hterm : e.term = T) {s : Cluster N C} {k : ℕ}
    (ht : s.tasks[k]? = some ⟨i, .heartbeat, .looping⟩) (m : ℕ)
    (h : Spreading cfg M hM i L T (fun _ => m + 1) s.nodes ls) :
    ∃ acts s' ls', (∀ a ∈ acts, a.crashFree = true) ∧ s.run cfg acts = some s' ∧
      s'.tasks[k]? = some ⟨i, .heartbeat, .looping⟩ ∧
      Spreading cfg M hM i L T (fun _ => m) s'.nodes ls' ∧
      (∀ f ∉ M, s'.nodes f = s.nodes f) ∧
      (m = 0 → (s'.nodes i).volatile.commitIndex = L.length ∧
        (s'.nodes i).volatile.lastApplied = L.length) := by
  have hstep : s.step cfg (.heartbeat k) =
      some (s.sendNext cfg k ⟨i, .heartbeat, .looping⟩ (cfg.getOtherNodes i)) := by
    have hgo : ¬ ((s.nodes i).state ≠ .leader ∨ (s.nodes i).leaderState.isNone) := by
      rintro (hs | hnone)
      · exact hs h.leading.state
      · rw [h.leading.leaderState] at hnone
        cases hnone
    have hsend : s.step cfg (.heartbeat k) =
        some (s.sendAppendEntries cfg k ⟨i, .heartbeat, .looping⟩) := by
      simp [step, ht, h.leading.state]
    rw [hsend]
    exact congrArg some (if_neg hgo)
  have hspread : Spreading cfg M hM i L T
      (fun f => if f ∈ cfg.getOtherNodes i then m + 1 else m) s.nodes ls := by
    refine ⟨h.leading, h.ok, fun f hf hfi => ?_⟩
    rw [if_pos (Config.mem_getOtherNodes.mpr ⟨hsub f hf, hfi⟩)]
    exact h.within f hf hfi
  obtain ⟨acts, s', ls', hfree, hrun, htask, -, hrest⟩ := round_run now hi hL hmajority hlast hterm
    (List.getElem?_eq_some_iff.mp ht).1 .heartbeat .looping (cfg.nodup.filter _)
    (fun hmem => (Config.mem_getOtherNodes.mp hmem).2 rfl) m hspread
  exact ⟨.heartbeat k :: acts, s', ls', List.forall_mem_cons.mpr ⟨rfl, hfree⟩,
    (Transition.run_of_step hstep acts).trans hrun, htask, hrest⟩

/-- The turns of the loop until everything is committed. -/
theorem heartbeats_run (now : ℚ) (hi : i ∈ M) (hsub : ∀ f ∈ M, f ∈ cfg.nodes) (hL : Indexed L)
    (hmajority : cfg.getMajority ≤ M.length) {e : LogEntry C} (hlast : L.getLast? = some e)
    (hterm : e.term = T) (m : ℕ) {s : Cluster N C} {k : ℕ}
    (ht : s.tasks[k]? = some ⟨i, .heartbeat, .looping⟩)
    (h : Spreading cfg M hM i L T (fun _ => m + 1) s.nodes ls) :
    ∃ acts s' ls', (∀ a ∈ acts, a.crashFree = true) ∧ s.run cfg acts = some s' ∧
      Spreading cfg M hM i L T (fun _ => 0) s'.nodes ls' ∧
      (∀ f ∉ M, s'.nodes f = s.nodes f) ∧
      (s'.nodes i).volatile.commitIndex = L.length ∧
      (s'.nodes i).volatile.lastApplied = L.length := by
  induction m generalizing s ls with
  | zero =>
    obtain ⟨acts, s', ls', hfree, hrun, -, hs', hothers, hdone⟩ :=
      heartbeat_run now hi hsub hL hmajority hlast hterm ht 0 h
    exact ⟨acts, s', ls', hfree, hrun, hs', hothers, hdone rfl⟩
  | succ m ih =>
    obtain ⟨acts, t, ls', hfree, hrun, ht', hs', hothers, -⟩ :=
      heartbeat_run now hi hsub hL hmajority hlast hterm ht (m + 1) h
    obtain ⟨more, s', ls'', hfree', hrun', hs'', hothers', hdone⟩ := ih ht' hs'
    exact ⟨acts ++ more, s', ls'', List.forall_mem_append.mpr ⟨hfree, hfree'⟩,
      (Transition.run_append_of_run hrun more).trans hrun', hs'',
      fun f hf => (hothers' f hf).trans (hothers f hf), hdone⟩

end Cluster

end Run

end Pynchronize
