import Pynchronize.Raft.NodeSteps

/-!
# The two message handlers

After the term check a handler works on a message of the receiver's term or an
older one. A granted vote is a vote of the abstract replication, an accepted
AppendEntries takes over a prefix of the leader's log.
-/

namespace Pynchronize

open Lib Lib.Replication

variable {N C : Type*} [DecidableEq N] {cfg : Config N} {clean : Prop} {A : History N C} {i : N}
  {n : RaftNode N C}

/-! ## RequestVote -/

theorem NodeOk.cast (h : NodeOk cfg clean A i n) (hA : Consistent LogEntry.term cfg.quorums A)
    (c : N) (hnone : A.vote (A.term i) i = none) (now : ℚ) :
    NodeOk cfg clean (A.cast i c) i
      { { n with persistent := { n.persistent with votedFor := some c } }.saveState with
        lastHeartbeat := now } := by
  have g := (cast_acts i c hnone).grows
  have hstate : n.state ≠ .candidate := by
    intro hs
    obtain ⟨-, ⟨w, hw⟩, -⟩ := h.stands hs
    rw [hnone] at hw
    cases hw
  exact
    { term_eq := h.term_eq
      log_eq := h.log_eq
      indexed := h.indexed
      voted := by
        show some c = ((A.cast i c).vote (A.term i) i).map Prod.fst
        simp [Replication.cast]
      file := rfl
      leads := h.leads
      leaderState := h.leaderState
      stands := fun hs => absurd hs hstate
      ballots := fun hs => absurd hs hstate
      settled := fun hc => Settled.mono (h.settled hc) hA g le_rfl
      calls := fun hc call hm => (h.calls hc call hm).mono hA g
      order := h.order
      matched := h.matched }

theorem NodeOk.handleRequestVote (h : NodeOk cfg clean A i n)
    (hA : Consistent LogEntry.term cfg.quorums A) {src c : N} {T lastIndex lastTerm' : ℕ}
    (hreq : RequestOk cfg clean A src T (.requestVote c lastIndex lastTerm'))
    (hT : T ≤ n.persistent.currentTerm) (now : ℚ) :
    ∃ A', Consistent LogEntry.term cfg.quorums A' ∧ ActsOf i A A' ∧
      NodeOk cfg clean A' i (n.handleRequestVote i now T c lastIndex lastTerm').1 ∧
      A'.elected = A.elected ∧ A'.leaderLog = A.leaderLog ∧
      ((n.handleRequestVote i now T c lastIndex lastTerm').2.payload.voteGranted = true →
        ∃ w, A'.vote T i = some (src, w)) := by
  obtain ⟨rfl, ⟨w, hw⟩, hidx, hterm⟩ := hreq
  unfold RaftNode.handleRequestVote
  dsimp only
  split
  · rename_i hcond
    obtain ⟨hge, hvote, hup⟩ := hcond
    have hTi : T = A.term i := by
      rw [← h.term_eq]
      omega
    subst hTi
    rw [h.lastLogIndex, h.lastLogTerm, hidx, hterm] at hup
    have hup : UpToDate LogEntry.term (A.log i) (A.campaign (A.term i) c) :=
      hup.imp_right fun hle => ⟨hle.1.symm, hle.2⟩
    cases hv : A.vote (A.term i) i with
    | none =>
      exact ⟨A.cast i c, hA.cast hv hw hup, cast_acts i c hv, h.cast hA c hv now, rfl, rfl,
        fun _ => ⟨A.log i, by simp [Replication.cast]⟩⟩
    | some x =>
      -- it has voted already, for this candidate
      have hx : n.persistent.votedFor = some x.1 := by
        rw [h.voted, hv]
        rfl
      have hxc : x.1 = c := by
        rw [hx] at hvote
        simpa using hvote
      refine ⟨A, hA, ActsOf.refl i A, ?_, rfl, rfl, fun _ => ⟨x.2, by rw [hv, ← hxc]⟩⟩
      refine { h with voted := ?_, file := rfl }
      rw [hv, ← hxc]
      rfl
  · exact ⟨A, hA, ActsOf.refl i A, h, rfl, rfl, fun hg => by cases hg⟩

/-! ## AppendEntries -/

omit [DecidableEq N] in
theorem RaftNode.matchesPrev_eq_true {prev prevTerm : ℕ} (hm : n.matchesPrev prev prevTerm = true) :
    prev = 0 ∨ ∃ e, 0 < prev ∧ n.persistent.log[prev - 1]? = some e ∧ e.term = prevTerm := by
  unfold RaftNode.matchesPrev at hm
  split at hm
  · rename_i hpos
    cases he : n.getLogEntry prev with
    | none => simp [he] at hm
    | some e =>
      rw [he] at hm
      exact Or.inr ⟨e, hpos, (getLogEntry_eq_some he).2, by simpa using hm⟩
  · exact Or.inl (by omega)

/-- A follower that finds the entry before the new ones has the leader's log up to there. -/
theorem NodeOk.take_eq_of_matchesPrev (h : NodeOk cfg clean A i n)
    (hA : Consistent LogEntry.term cfg.quorums A) {x : N × Finset N} {T : ℕ}
    (hx : A.elected T = some x) {prev prevTerm : ℕ} {entries : List (LogEntry C)}
    (hs : Slice (A.leaderLog T) prev prevTerm entries)
    (hm : n.matchesPrev prev prevTerm = true) :
    prev ≤ (A.leaderLog T).length ∧ (A.leaderLog T).take prev ++ entries <+: A.leaderLog T ∧
      n.persistent.log.take prev = (A.leaderLog T).take prev := by
  have hcoh : Coherent LogEntry.term A n.persistent.log := by
    rw [h.log_eq]
    exact hA.logs i
  rcases RaftNode.matchesPrev_eq_true hm with rfl | ⟨e, hpos, he, hterm⟩
  · rcases hs with ⟨hp, -, hpre⟩ | ⟨hpos, -, -⟩
    · exact ⟨hp, hpre, rfl⟩
    · omega
  · rcases hs with ⟨hp, ht, hpre⟩ | ⟨-, h0, -⟩
    · refine ⟨hp, hpre, ?_⟩
      obtain ⟨y, hy⟩ : ∃ y, (A.leaderLog T)[prev - 1]? = some y :=
        ⟨_, List.getElem?_eq_getElem (by omega)⟩
      have hyt : lastTerm LogEntry.term ((A.leaderLog T).take prev) = y.term := by
        have hlen : ((A.leaderLog T).take prev).length = prev := by
          rw [List.length_take]
          omega
        obtain ⟨z, hz, hzt⟩ := lastTerm_eq LogEntry.term
          (l := (A.leaderLog T).take prev) (List.length_pos_iff.mp (by omega))
        rw [hlen, List.getElem?_take_of_lt (by omega), hy] at hz
        rw [hzt, Option.some.inj hz]
      have := hcoh.take_eq (hA.leaderLogs hx) he hy (by rw [hterm, ht, hyt])
      rwa [Nat.sub_add_cancel hpos] at this
    · have := hA.term_pos hcoh (List.mem_of_getElem? he)
      omega

theorem NodeOk.matching (h : NodeOk cfg clean A i n)
    (hA : Consistent LogEntry.term cfg.quorums A) {x : N × Finset N} {T : ℕ}
    (hx : A.elected T = some x) : Matching n.persistent.log (A.leaderLog T) := by
  intro p e e' he he' ht
  rw [h.log_eq] at he ⊢
  exact (hA.logs i).take_eq (hA.leaderLogs hx) he he' ht

section Accept

variable [DecidableEq C]

/-- The follower of the current leader takes over a part of its log. -/
theorem NodeOk.mergeEntries (h : NodeOk cfg clean A i n)
    (hA : Consistent LogEntry.term cfg.quorums A) {src : N} {Q : Finset N}
    (hx : A.elected (A.term i) = some (src, Q)) (hstate : n.state = .follower)
    (hL : Indexed (A.leaderLog (A.term i))) {prev : ℕ} {entries : List (LogEntry C)}
    (hprev : prev ≤ (A.leaderLog (A.term i)).length)
    (hslice : (A.leaderLog (A.term i)).take prev ++ entries <+: A.leaderLog (A.term i))
    (htake : n.persistent.log.take prev = (A.leaderLog (A.term i)).take prev) :
    NodeOk cfg clean (A.accept i (prev + entries.length)) i (n.mergeEntries entries) := by
  have g := (accept_acts (A := A) i (prev + entries.length)).grows
  have hmerge := foldl_mergeEntry hL hslice hprev htake (h.matching hA hx)
  have hlog : (A.accept i (prev + entries.length)).log i =
      entries.foldl RaftNode.mergeEntry n.persistent.log := by
    rw [hmerge, h.log_eq]
    simp [Replication.accept]
  have hnone := h.leaderState_eq_none (by rw [hstate]; decide)
  have hsettled : clean → IsSettled cfg (A.accept i (prev + entries.length)) (A.term i)
      (entries.foldl RaftNode.mergeEntry n.persistent.log) n.volatile.commitIndex := by
    intro hc
    rw [hmerge]
    exact Settled.mono (Settled.mergeTake (h.settled hc) hA le_rfl hx _) hA g le_rfl
  have hindexed : Indexed (entries.foldl RaftNode.mergeEntry n.persistent.log) := by
    rw [hmerge]
    unfold mergeTake
    split
    · exact h.indexed
    · exact hL.of_isPrefix (List.take_prefix _ _)
  cases entries with
  | nil =>
    exact
      { term_eq := h.term_eq
        log_eq := hlog.symm
        indexed := h.indexed
        voted := h.voted
        file := h.file
        leads := fun hs => by
          have hs : n.state = .leader := hs
          rw [hstate] at hs
          cases hs
        leaderState := h.leaderState
        stands := fun hs => by
          have hs : n.state = .candidate := hs
          rw [hstate] at hs
          cases hs
        ballots := h.ballots
        settled := hsettled
        calls := fun hc call hm => (h.calls hc call hm).mono hA g
        order := h.order
        matched := fun _ ls hls => by
          have hls : n.leaderState = some ls := hls
          rw [hnone] at hls
          cases hls }
  | cons e rest =>
    exact
      { term_eq := h.term_eq
        log_eq := hlog.symm
        indexed := hindexed
        voted := h.voted
        file := rfl
        leads := fun hs => by
          have hs : n.state = .leader := hs
          rw [hstate] at hs
          cases hs
        leaderState := h.leaderState
        stands := fun hs => by
          have hs : n.state = .candidate := hs
          rw [hstate] at hs
          cases hs
        ballots := h.ballots
        settled := hsettled
        calls := fun hc call hm => (h.calls hc call hm).mono hA g
        order := h.order
        matched := fun _ ls hls => by
          have hls : n.leaderState = some ls := hls
          rw [hnone] at hls
          cases hls }

end Accept

theorem NodeOk.followCommit (h : NodeOk cfg clean A i n) {lc : ℕ}
    (hset : clean → IsSettled cfg A (A.term i) n.persistent.log lc) :
    NodeOk cfg clean A i (n.followCommit lc).1 := by
  rcases n.followCommit_eq lc with heq | ⟨hlt, heq⟩
  · rw [heq]
    exact h
  · rw [heq]
    refine (h.withVolatile (fun hc => ?_) h.calls fun hc => ?_).applyCommitted
    · exact Settled.of_le (hset hc) (Nat.min_le_left _ _)
    · refine ⟨(h.order hc).1, (h.order hc).2.trans ?_⟩
      have hlen : n.getLastLogIndex = n.persistent.log.length :=
        RaftNode.getLastLogIndex_eq h.indexed
      have := (h.settled hc).1
      show n.volatile.commitIndex ≤ min lc n.getLastLogIndex
      omega

/-- A candidate that hears of the leader of its term follows it. -/
theorem NodeOk.followLeader (h : NodeOk cfg clean A i n) {src : N} {Q : Finset N}
    (hx : A.elected (A.term i) = some (src, Q)) (hne : src ≠ i) (now : ℚ) (leaderId : N) :
    NodeOk cfg clean A i
      { n with lastHeartbeat := now, currentLeader := some leaderId, state := .follower } := by
  have hnl := h.not_leader hx hne
  exact
    { h with
      leads := fun hs => by cases hs
      leaderState := by
        refine ⟨fun hs => ?_, fun hs => by cases hs⟩
        exact absurd (h.leaderState.mp hs) hnl
      stands := fun hs => by cases hs
      ballots := fun hs => by cases hs }

theorem NodeOk.handleAppendEntries [DecidableEq C] (h : NodeOk cfg clean A i n)
    (hA : Consistent LogEntry.term cfg.quorums A) {src leaderId : N} {T prev prevTerm lc : ℕ}
    {entries : List (LogEntry C)}
    (hreq : RequestOk cfg clean A src T (.appendEntries leaderId prev prevTerm entries lc))
    (hL : ∀ T x, A.elected T = some x → Indexed (A.leaderLog T))
    (hT : T ≤ n.persistent.currentTerm) (hne : src ≠ i) (now : ℚ) :
    ∃ A', Consistent LogEntry.term cfg.quorums A' ∧ ActsOf i A A' ∧
      NodeOk cfg clean A' i
        (n.handleAppendEntries i now T leaderId prev prevTerm entries lc).1 ∧
      A'.elected = A.elected ∧ A'.leaderLog = A.leaderLog ∧
      (∀ response, (n.handleAppendEntries i now T leaderId prev prevTerm entries lc).2 =
          some response → response.payload.voteGranted = false) ∧
      (((n.handleAppendEntries i now T leaderId prev prevTerm entries lc).2 = none ∨
        ∃ response, (n.handleAppendEntries i now T leaderId prev prevTerm entries lc).2 =
          some response ∧ response.payload.success = true) →
        prev + entries.length ≤ A'.acked T i) := by
  obtain ⟨⟨Q, hQ⟩, hslice, hcommit⟩ := hreq
  rcases Nat.lt_or_ge T n.persistent.currentTerm with hlt | hge
  · -- an older leader
    rw [RaftNode.handleAppendEntries_of_lt i now n leaderId entries lc hlt]
    refine ⟨A, hA, ActsOf.refl i A, { h with }, rfl, rfl, ?_, ?_⟩
    · rintro response hr
      rw [← Option.some.inj hr]
      rfl
    · rintro (hr | ⟨response, hr, hsucc⟩)
      · cases hr
      · rw [← Option.some.inj hr] at hsucc
        cases hsucc
  · have hTi : T = A.term i := by
      rw [← h.term_eq]
      omega
    subst hTi
    have hnl := h.not_leader hQ hne
    have hfollow := h.followLeader hQ hne now leaderId
    rw [RaftNode.handleAppendEntries_of_le i now n leaderId entries lc hge]
    -- whatever it was before, it is a follower of `src` now
    have hn : n.heard now leaderId =
        { n with lastHeartbeat := now, currentLeader := some leaderId, state := .follower } := by
      unfold RaftNode.heard
      cases hs : n.state with
      | follower => rfl
      | candidate => rfl
      | leader => exact absurd hs hnl
    rw [hn]
    split
    · rename_i hm
      obtain ⟨hprev, hpre, htake⟩ := hfollow.take_eq_of_matchesPrev hA hQ hslice hm
      have hmlen : prev + entries.length ≤ (A.leaderLog (A.term i)).length := by
        have := hpre.length_le
        rw [List.length_append, List.length_take] at this
        omega
      have hmerged := hfollow.mergeEntries hA hQ rfl (hL _ _ hQ) hprev hpre htake
      refine ⟨A.accept i (prev + entries.length), hA.accept hQ hmlen, accept_acts i _,
        hmerged.followCommit fun hc => ?_, rfl, rfl, ?_, fun _ => ?_⟩
      · obtain ⟨hle, hset⟩ := hcommit hc
        refine (Settled.mono hset hA (accept_acts (A := A) i _).grows le_rfl).of_isPrefix ?_
        rw [hmerged.log_eq]
        refine (List.take_prefix_take_left hle).trans ?_
        simpa [Replication.accept] using
          take_prefix_mergeTake (A.leaderLog (A.term i)) (prev + entries.length) (A.log i)
      · intro response hr
        split at hr
        · cases hr
        · rw [← Option.some.inj hr]
          rfl
      · simp [Replication.accept]
    · refine ⟨A, hA, ActsOf.refl i A, hfollow, rfl, rfl, ?_, ?_⟩
      · rintro response hr
        rw [← Option.some.inj hr]
        rfl
      · rintro (hr | ⟨response, hr, hsucc⟩)
        · cases hr
        · rw [← Option.some.inj hr] at hsucc
          cases hsucc

end Pynchronize
