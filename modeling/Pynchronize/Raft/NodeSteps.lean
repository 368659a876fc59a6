import Pynchronize.Raft.Coupling

/-!
# One node and the history

What each method of a node does to its part of the coupling, and which act of
the abstract replication it is.
-/

namespace Pynchronize

open Lib Lib.Replication

variable {N C : Type*} [DecidableEq N] {cfg : Config N} {clean : Prop} {A : History N C} {i : N}
  {n : RaftNode N C}

/-! ## Reading the coupling -/

theorem NodeOk.not_leader (h : NodeOk cfg clean A i n) {j : N} {Q : Finset N}
    (he : A.elected (A.term i) = some (j, Q)) (hj : j ≠ i) : n.state ≠ .leader := by
  intro hs
  obtain ⟨Q', hQ', -⟩ := h.leads hs
  rw [he] at hQ'
  exact hj (Prod.mk.inj (Option.some.inj hQ')).1

theorem NodeOk.leaderState_eq_none (h : NodeOk cfg clean A i n) (hs : n.state ≠ .leader) :
    n.leaderState = none := by
  cases hl : n.leaderState with
  | none => rfl
  | some ls => exact absurd (h.leaderState.mp (by rw [hl]; rfl)) hs

theorem NodeOk.state_of_leaderState (h : NodeOk cfg clean A i n) {ls : LeaderState N}
    (hl : n.leaderState = some ls) : n.state = .leader :=
  h.leaderState.mp (by rw [hl]; rfl)

theorem NodeOk.lastLogIndex (h : NodeOk cfg clean A i n) :
    n.getLastLogIndex = (A.log i).length := by
  rw [RaftNode.getLastLogIndex_eq h.indexed, h.log_eq]

theorem NodeOk.lastLogTerm (h : NodeOk cfg clean A i n) :
    n.getLastLogTerm = lastTerm LogEntry.term (A.log i) := by
  rw [RaftNode.getLastLogTerm_eq, h.log_eq]

theorem BroadcastOk.of_eq {rpcs : List (Rpc N C)} {n' : RaftNode N C}
    (h : BroadcastOk cfg rpcs i n) (ht : n'.electionTask = n.electionTask)
    (hs : n'.state = .candidate →
      n.state = .candidate ∧ n'.persistent.currentTerm = n.persistent.currentTerm) :
    BroadcastOk cfg rpcs i n' := by
  intro sends he send hm
  obtain ⟨T, payload, hr, ho, hc⟩ := h sends (ht ▸ he) send hm
  exact ⟨T, payload, hr, ho, fun hcand => by rw [(hs hcand).2]; exact hc (hs hcand).1⟩

/-! ## The commit index -/

theorem NodeOk.withVolatile (h : NodeOk cfg clean A i n) {v : VolatileState}
    {calls : List (ℕ × C)}
    (hset : clean → IsSettled cfg A (A.term i) n.persistent.log v.commitIndex)
    (hcalls : clean → ∀ call ∈ calls, Decided cfg A call.1 call.2)
    (horder : clean → calls.map Prod.fst = List.range' 1 v.lastApplied ∧
      v.lastApplied ≤ v.commitIndex) : NodeOk cfg clean A i (n.withVolatile v calls) :=
  { h with
    settled := hset
    calls := hcalls
    order := horder }

theorem NodeOk.applyCommitted (h : NodeOk cfg clean A i n) :
    NodeOk cfg clean A i n.applyCommitted.1 := by
  obtain ⟨a, calls, heq, happ⟩ := n.applyCommitted_eq
  rw [heq]
  refine h.withVolatile h.settled (fun hc => ?_) (fun hc => ?_)
  · intro call hm
    cases happ (h.settled hc).1 with
    | idle => exact h.calls hc call hm
    | call hlt he =>
      rcases List.mem_append.mp hm with hm | hm
      · exact h.calls hc call hm
      · rw [List.mem_singleton.mp hm]
        obtain ⟨T, p, hcom, hp, hL⟩ := Settled.getElem? (h.settled hc) hlt he
        exact ⟨T, p, _, hcom, Nat.succ_pos _, hp, hL, rfl⟩
  · cases happ (h.settled hc).1 with
    | idle => exact h.order hc
    | call hlt he =>
      refine ⟨?_, hlt⟩
      rw [List.map_append, (h.order hc).1, List.range'_1_concat, Nat.add_comm 1]
      rfl

/-- A majority of `match_index` values and the leader itself make a quorum. -/
theorem committed_of_committable (h : NodeOk cfg clean A i n)
    (hA : Consistent LogEntry.term cfg.quorums A) (hi : i ∈ cfg.nodes) (hc : clean)
    {ls : LeaderState N} (hls : n.leaderState = some ls) {k : ℕ}
    (hk : n.Committable cfg ls k) : IsCommitted cfg A (A.term i) (k - 1) := by
  obtain ⟨e, he, hterm⟩ := hk.entry
  obtain ⟨hpos, hlog⟩ := RaftNode.getLogEntry_eq_some he
  obtain ⟨Q, hQ, hL⟩ := h.leads (h.state_of_leaderState hls)
  have hleader : (A.leaderLog (A.term i))[k - 1]? = some e := by rw [hL, ← h.log_eq, hlog]
  refine ⟨⟨e, hleader, by rw [hterm, h.term_eq]⟩, ?_⟩
  let followers := (ls.matchIndex.items.filter fun kv => kv.2 ≥ k).map Prod.fst
  have hfollow : ∀ f ∈ followers, f ∈ cfg.getOtherNodes i ∧ k - 1 < A.acked (A.term i) f := by
    intro f hf
    obtain ⟨⟨f', m⟩, hm, rfl⟩ := List.mem_map.mp hf
    obtain ⟨hmem, hge⟩ := List.mem_filter.mp hm
    obtain ⟨hother, hack⟩ := h.matched hc ls hls f' m
      ((Dict.mem_items_iff ls.matchIndex f' m).mp hmem)
    have hge : k ≤ m := by simpa using hge
    exact ⟨hother, by show k - 1 < A.acked (A.term i) f'; omega⟩
  have hnodup : (i :: followers).Nodup := by
    refine List.nodup_cons.mpr ⟨fun hmem => ?_, ?_⟩
    · exact (Config.mem_getOtherNodes.mp (hfollow i hmem).1).2 rfl
    · exact ls.matchIndex.nodup.sublist (List.filter_sublist.map _)
  refine ⟨(i :: followers).toFinset, Config.isQuorum_of_card ?_ ?_, ?_⟩
  · intro f hf
    rw [List.mem_toFinset] at hf ⊢
    rcases List.mem_cons.mp hf with rfl | hf
    · exact hi
    · exact (Config.mem_getOtherNodes.mp (hfollow f hf).1).1
  · rw [List.toFinset_card_of_nodup hnodup, List.length_cons, List.length_map]
    have := hk.majority
    unfold RaftNode.matchCount at this
    omega
  · intro f hf
    rcases List.mem_cons.mp (List.mem_toFinset.mp hf) with rfl | hf
    · rw [(hA.leaders hQ).2]
      exact (List.getElem?_eq_some_iff.mp hleader).1
    · exact (hfollow f hf).2

theorem NodeOk.tryCommit (h : NodeOk cfg clean A i n)
    (hA : Consistent LogEntry.term cfg.quorums A) (hi : i ∈ cfg.nodes) :
    NodeOk cfg clean A i (n.tryCommit cfg).1 := by
  rcases n.tryCommit_eq cfg with heq | ⟨ls, c, hls, hor, heq⟩
  · rw [heq]
    exact h
  · rw [heq]
    refine (h.withVolatile (fun hc => ?_) h.calls fun hc => ?_).applyCommitted
    · rcases hor with rfl | ⟨-, hk⟩
      · exact h.settled hc
      · obtain ⟨Q, hQ, hL⟩ := h.leads (h.state_of_leaderState hls)
        obtain ⟨e, he, -⟩ := hk.entry
        obtain ⟨hpos, hlog⟩ := RaftNode.getLogEntry_eq_some he
        have hlt := (List.getElem?_eq_some_iff.mp hlog).1
        refine ⟨by show c ≤ _; omega, Or.inr ⟨A.term i, c - 1,
          committed_of_committable h hA hi hc hls hk, le_rfl, by show c ≤ _; omega, ?_⟩⟩
        rw [hL, h.log_eq]
        exact List.take_prefix _ _
    · have := (h.order hc).2
      refine ⟨(h.order hc).1, ?_⟩
      show n.volatile.lastApplied ≤ c
      rcases hor with rfl | ⟨hlt, -⟩ <;> omega

/-! ## A later term -/

theorem NodeOk.stepDown (h : NodeOk cfg clean A i n)
    (hA : Consistent LogEntry.term cfg.quorums A) {T : ℕ} (hT : n.persistent.currentTerm < T) :
    NodeOk cfg clean (A.advance i T) i (n.stepDown T) := by
  rw [h.term_eq] at hT
  have g := (advance_acts (A := A) i hT.le).grows
  have hterm : (A.advance i T).term i = T := by simp [advance]
  exact
    { term_eq := hterm.symm
      log_eq := h.log_eq
      indexed := h.indexed
      voted := by
        rw [hterm]
        show none = (A.vote T i).map Prod.fst
        cases hv : A.vote T i with
        | none => rfl
        | some x =>
          have := hA.vote_le (c := x.1) (w := x.2) hv
          omega
      file := rfl
      leads := fun hs => by cases hs
      leaderState := ⟨fun hs => (by cases hs), fun hs => (by cases hs)⟩
      stands := fun hs => by cases hs
      ballots := fun hs => by cases hs
      settled := fun hc => Settled.mono (h.settled hc) hA g (by rw [hterm]; exact hT.le)
      calls := fun hc call hm => (h.calls hc call hm).mono hA g
      order := h.order
      matched := fun _ ls hls => by cases hls }

/-! ## Elections -/

theorem NodeOk.startElection (h : NodeOk cfg clean A i n)
    (hA : Consistent LogEntry.term cfg.quorums A) (hi : i ∈ cfg.nodes) (hs : n.state ≠ .leader) :
    NodeOk cfg clean (A.nominate i) i (n.startElection i) := by
  have g := (nominate_acts hA i).grows
  have hterm : (A.nominate i).term i = A.term i + 1 := by simp [nominate]
  have hvote : (A.nominate i).vote (A.term i + 1) i = some (i, A.log i) := by simp [nominate]
  have hl := h.leaderState_eq_none hs
  exact
    { term_eq := by
        rw [hterm, ← h.term_eq]
        rfl
      log_eq := h.log_eq
      indexed := h.indexed
      voted := by
        rw [hterm, hvote]
        rfl
      file := rfl
      leads := fun hs => by cases hs
      leaderState := by
        refine ⟨fun hs => ?_, fun hs => by cases hs⟩
        have : n.leaderState.isSome = true := hs
        rw [hl] at this
        cases this
      stands := by
        intro _
        rw [hterm, hvote]
        refine ⟨by simp [nominate], ⟨_, rfl⟩, fun Q hQ => ?_⟩
        have := (hA.standing (show A.elected (A.term i + 1) = some (i, Q) from hQ)).term_le
        omega
      ballots := by
        intro _ v hv
        have hv : v = i := by
          rcases (Dict.mem_keys_set Dict.empty i v true).mp hv with hv | hv
          · exact hv
          · simp at hv
        rw [hv, hterm, hvote]
        exact ⟨hi, _, rfl⟩
      settled := fun hc => Settled.mono (h.settled hc) hA g (by rw [hterm]; exact Nat.le_succ _)
      calls := fun hc call hm => (h.calls hc call hm).mono hA g
      order := h.order
      matched := by
        intro _ ls hls
        have : n.leaderState = some ls := hls
        rw [hl] at this
        cases this }

theorem get?_foldl_set {V : Type*} (others : List N) (x : V) (d : Dict N V) (f : N) (v : V)
    (h : (others.foldl (fun d node => d.set node x) d).get? f = some v) :
    (f ∈ others ∧ v = x) ∨ d.get? f = some v := by
  induction others generalizing d with
  | nil => exact Or.inr h
  | cons a others ih =>
    rcases ih (d.set a x) h with ⟨hm, hv⟩ | hd
    · exact Or.inl ⟨List.mem_cons_of_mem _ hm, hv⟩
    · rw [Dict.get?_set] at hd
      split at hd
      · rename_i hfa
        exact Or.inl ⟨by simp [hfa], (Option.some.inj hd).symm⟩
      · exact Or.inr hd

theorem NodeOk.becomeLeader (h : NodeOk cfg clean A i n)
    (hA : Consistent LogEntry.term cfg.quorums A) {Q : Finset N}
    (hnone : A.elected (A.term i) = none) :
    NodeOk cfg clean (A.elect i Q) i (n.becomeLeader cfg i) := by
  have g := (elect_acts hA i Q hnone).grows
  exact
    { term_eq := h.term_eq
      log_eq := h.log_eq
      indexed := h.indexed
      voted := h.voted
      file := h.file
      leads := fun _ => ⟨Q, by simp [elect], by simp [elect]⟩
      leaderState := ⟨fun _ => rfl, fun _ => rfl⟩
      stands := fun hs => by cases hs
      ballots := fun hs => by cases hs
      settled := fun hc => Settled.mono (h.settled hc) hA g le_rfl
      calls := fun hc call hm => (h.calls hc call hm).mono hA g
      order := h.order
      matched := by
        intro _ ls hls f m hm
        obtain rfl := Option.some.inj hls
        rcases get?_foldl_set (cfg.getOtherNodes i) 0 Dict.empty f m hm with ⟨hf, rfl⟩ | hd
        · exact ⟨hf, Nat.zero_le _⟩
        · simp at hd }

/-! ## The leader's log -/

theorem NodeOk.appendCommand (h : NodeOk cfg clean A i n)
    (hA : Consistent LogEntry.term cfg.quorums A) (hs : n.state = .leader) (command : C) :
    NodeOk cfg clean (A.append i (n.newEntry command)) i (n.appendCommand command) := by
  obtain ⟨Q, hQ, hL⟩ := h.leads hs
  have g := (append_acts hA (n.newEntry command) hQ hL).grows
  have hlog : (A.append i (n.newEntry command)).log i = A.log i ++ [n.newEntry command] := by
    simp [append]
  exact
    { term_eq := h.term_eq
      log_eq := by
        rw [hlog, ← h.log_eq]
        rfl
      indexed := h.indexed.append rfl
      voted := h.voted
      file := rfl
      leads := fun _ => ⟨Q, hQ, by simp [append]⟩
      leaderState := h.leaderState
      stands := fun hc => by
        have : n.state = .candidate := hc
        rw [hs] at this
        cases this
      ballots := fun hc => by
        have : n.state = .candidate := hc
        rw [hs] at this
        cases this
      settled := fun hc => (Settled.mono (h.settled hc) hA g le_rfl).of_isPrefix
        ((List.take_prefix _ _).trans (List.prefix_append _ _))
      calls := fun hc call hm => (h.calls hc call hm).mono hA g
      order := h.order
      matched := fun hc ls hls f m hm =>
        ⟨(h.matched hc ls hls f m hm).1, (h.matched hc ls hls f m hm).2.trans (g.acked _ _)⟩ }

/-! ## Restart -/

theorem NodeOk.boot (h : NodeOk cfg clean A i n) (now : ℚ) :
    NodeOk cfg clean A i (RaftNode.boot n.stateFile now) where
  term_eq := by
    rw [← h.term_eq, ← h.file]
    rfl
  log_eq := by
    rw [← h.log_eq, ← h.file]
    rfl
  indexed := by
    have := h.indexed
    rw [← h.file] at this
    exact this
  voted := by
    rw [← h.voted, ← h.file]
    rfl
  file := rfl
  leads hs := by cases hs
  leaderState := ⟨fun hs => (by cases hs), fun hs => (by cases hs)⟩
  stands hs := by cases hs
  ballots hs := by cases hs
  settled _ := settled_zero _ _
  calls _ call hm := by cases hm
  order _ := ⟨rfl, le_rfl⟩
  matched _ ls hls := by cases hls

end Pynchronize
