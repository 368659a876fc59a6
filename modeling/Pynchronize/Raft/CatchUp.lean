import Pynchronize.Raft.MatchIndex
import Pynchronize.Raft.Merge

/-!
# Catching up

`sendRound` is one call of `_send_append_entries` whose RPCs are all delivered
and answered, with nothing else going on. Each refusal moves `next_index` one
back, and the first acceptance repairs the log of the follower.
-/

namespace Pynchronize

open Lib

variable {N C : Type*} [DecidableEq N]

/-! ## One round -/

/-- What `_send_append_entries` sent to a node and the answer it got. -/
structure Exchange (N C : Type*) where
  sent : RaftNode.Outgoing N C
  response : Message N Response

namespace RaftNode

/-- `_try_commit` to its end. -/
def commitAll (cfg : Config N) (n : RaftNode N C) : RaftNode N C :=
  if (n.tryCommit cfg).2 then (n.tryCommit cfg).1.applyRest else (n.tryCommit cfg).1

/-- The `leader_state` after the answer to `o`. -/
def book (ls : LeaderState N) (o : Outgoing N C) (success : Bool) : LeaderState N :=
  if success then
    if o.entries.isEmpty then ls
    else
      { nextIndex := ls.nextIndex.set o.nodeId (o.prevLogIndex + o.entries.length + 1)
        matchIndex := ls.matchIndex.set o.nodeId (o.prevLogIndex + o.entries.length) }
  else { ls with nextIndex := ls.nextIndex.set o.nodeId (max 1 (o.nextIdx - 1)) }

theorem handleResponse_of_le {n : RaftNode N C} {ls : LeaderState N} (o : Outgoing N C)
    {response : Message N Response} (hls : n.leaderState = some ls)
    (hterm : response.term ≤ n.persistent.currentTerm) :
    n.handleResponse o (some response) =
      some ({ n with leaderState := some (book ls o response.payload.success) }, false) := by
  have hself : { n with leaderState := some ls } = n := by rw [← hls]
  unfold handleResponse book
  dsimp only
  cases response.payload.success with
  | true =>
    cases o.entries.isEmpty with
    | true =>
      rw [if_pos rfl, if_pos rfl, if_pos rfl, if_pos rfl, hself]
    | false => simp [hls]
  | false => simp [hls, Nat.not_lt.mpr hterm]

theorem get?_book_of_ne {ls : LeaderState N} {o : Outgoing N C} {f : N} (h : o.nodeId ≠ f)
    (success : Bool) :
    (book ls o success).nextIndex.get? f = ls.nextIndex.get? f ∧
      (book ls o success).matchIndex.get? f = ls.matchIndex.get? f := by
  unfold book
  split
  · split
    · exact ⟨rfl, rfl⟩
    · simp [Dict.get?_set, h]
  · simp [Dict.get?_set, h]

omit [DecidableEq N] in
theorem commitAll_eq (cfg : Config N) (n : RaftNode N C) :
    ∃ v calls, n.commitAll cfg = n.withVolatile v calls := by
  have hcommit : ∃ v calls, (n.tryCommit cfg).1 = n.withVolatile v calls := by
    rcases n.tryCommit_eq cfg with heq | ⟨ls, c, -, -, heq⟩
    · exact ⟨n.volatile, n.applied, heq⟩
    · obtain ⟨a, calls, happly⟩ := applyCommitted_volatile
        (n.withVolatile { n.volatile with commitIndex := c } n.applied)
      exact ⟨_, calls, heq.trans happly⟩
  obtain ⟨v, calls, heq⟩ := hcommit
  unfold commitAll
  split
  · obtain ⟨a, calls', hrest⟩ := applyRest_eq (n.tryCommit cfg).1
    exact ⟨_, calls', by rw [hrest, heq]; rfl⟩
  · exact ⟨v, calls, heq⟩

end RaftNode

/-- The loop of `_send_append_entries` on node `i`, with the answer of every node. -/
def sendLoop (cfg : Config N) (i : N) (now : ℚ) :
    List N → (N → RaftNode N C) → (N → RaftNode N C) × List (Exchange N C)
  | [], nodes => (Function.update nodes i ((nodes i).commitAll cfg), [])
  | nodeId :: rest, nodes =>
    match (nodes i).leaderState with
    | none => (nodes, [])
    | some ls =>
      let o := (nodes i).outgoing ls nodeId
      let result := (nodes nodeId).answer nodeId now ((nodes i).appendEntriesMessage i o)
      let nodes := Function.update nodes nodeId result.1
      match (nodes i).handleResponse o (some result.2) with
      | none => (nodes, [⟨o, result.2⟩])
      | some (n, _) =>
        let next := sendLoop cfg i now rest (Function.update nodes i n)
        (next.1, ⟨o, result.2⟩ :: next.2)

def sendRound (cfg : Config N) (i : N) (now : ℚ) (nodes : N → RaftNode N C) :
    (N → RaftNode N C) × List (Exchange N C) :=
  if (nodes i).state ≠ .leader ∨ (nodes i).leaderState.isNone then (nodes, [])
  else sendLoop cfg i now (cfg.getOtherNodes i) nodes

/-- The nodes after a round at each of the given times. -/
def afterRounds (cfg : Config N) (i : N) (times : List ℚ) (nodes : N → RaftNode N C) :
    N → RaftNode N C :=
  times.foldl (fun nodes now => (sendRound cfg i now nodes).1) nodes

/-! ## Rounds are runs of the cluster -/

namespace Cluster

variable (cfg : Config N)

theorem step_resume_applying {s : Cluster N C} {k : ℕ} {i : N} {kind : TaskKind}
    (ht : s.tasks[k]? = some ⟨i, kind, .applying⟩) : s.step cfg (.resume k) =
      some (s.applied k ⟨i, kind, .applying⟩ (s.nodes i).applyCommitted) := by
  simp [step, ht]

/-- `command_handler` returns until `_try_commit` is done. -/
theorem applied_run {s : Cluster N C} {k : ℕ} {i : N} {kind : TaskKind}
    (ht : s.tasks[k]? = some ⟨i, kind, .applying⟩) (m : ℕ)
    (hm : (s.nodes i).volatile.commitIndex - (s.nodes i).volatile.lastApplied ≤ m) :
    ∃ acts s', (∀ a ∈ acts, a.crashFree = true) ∧ s.run cfg acts = some s' ∧
      s'.nodes = Function.update s.nodes i (RaftNode.applyRounds m (s.nodes i)) ∧
      s'.tasks = s.tasks.set k ⟨i, kind, afterSend kind⟩ := by
  induction m generalizing s with
  | zero =>
    have hresume := step_resume_applying cfg ht
    rw [RaftNode.applyCommitted_of_le (by omega)] at hresume
    exact ⟨[.resume k], _, List.forall_mem_singleton.mpr rfl, Transition.run_single hresume,
      rfl, rfl⟩
  | succ m ih =>
    have hresume := step_resume_applying cfg ht
    obtain ⟨hcommit, hadvances⟩ := (s.nodes i).applyCommitted_advances
    have hself : (s.applied k ⟨i, kind, .applying⟩ (s.nodes i).applyCommitted).nodes i =
        (s.nodes i).applyCommitted.1 := nodes_setNode_self s i _
    cases hsuspended : (s.nodes i).applyCommitted.2 with
    | true =>
      rw [hsuspended, if_pos rfl] at hadvances
      have ht' : (s.applied k ⟨i, kind, .applying⟩ (s.nodes i).applyCommitted).tasks[k]? =
          some ⟨i, kind, .applying⟩ := by
        unfold applied
        rw [hsuspended]
        exact getElem?_set_of_some ht _
      obtain ⟨acts, s', hfree, hrun, hnodes, htask⟩ := ih ht' (by rw [hself]; omega)
      refine ⟨.resume k :: acts, s', List.forall_mem_cons.mpr ⟨rfl, hfree⟩,
        (Transition.run_of_step hresume acts).trans hrun, ?_, htask.trans (List.set_set ..)⟩
      rw [hnodes, hself]
      exact Function.update_idem ..
    | false =>
      rw [hsuspended, if_neg Bool.false_ne_true] at hadvances
      refine ⟨[.resume k], _, List.forall_mem_singleton.mpr rfl, Transition.run_single hresume,
        ?_, ?_⟩
      · rw [RaftNode.applyRounds, RaftNode.applyRounds_of_le (by omega)]
        rfl
      · unfold applied
        rw [hsuspended]
        rfl

/-- The RPC that the loop waits for is delivered and answered, and the answer arrives. -/
theorem send_run {s : Cluster N C} {k j : ℕ} {i : N} {kind : TaskKind} {o : RaftNode.Outgoing N C}
    {rest : List N} {r : Rpc N C} (ht : s.tasks[k]? = some ⟨i, kind, .sending o j rest⟩)
    (hr : s.rpcs[j]? = some r) (hst : r.stage = .inFlight) (now : ℚ) :
    ∃ acts, (∀ a ∈ acts, a.crashFree = true) ∧ s.run cfg acts =
      some ((s.withHandler j r ((s.nodes r.dst).answer r.dst now r.message).1
        (.answered ((s.nodes r.dst).answer r.dst now r.message).2)).sendReturns cfg k
          ⟨i, kind, .sending o j rest⟩ o rest
          (some ((s.nodes r.dst).answer r.dst now r.message).2)) := by
  obtain ⟨acts, hfree, hacts⟩ := answer_run cfg hr hst now
  generalize (s.nodes r.dst).answer r.dst now r.message = result at hacts ⊢
  have htask : (s.withHandler j r result.1 (.answered result.2)).tasks[k]? =
      some ⟨i, kind, .sending o j rest⟩ := ht
  have hans : (s.withHandler j r result.1 (.answered result.2)).answerOf j = some result.2 := by
    unfold answerOf
    rw [getElem?_withHandler hr]
  refine ⟨acts ++ [.reply k],
    List.forall_mem_append.mpr ⟨hfree, List.forall_mem_singleton.mpr rfl⟩,
    (Transition.run_append_of_run hacts _).trans ?_⟩
  exact Transition.run_single (by simp [step, htask, hans])

/-- The loop goes on after a response, if it can run over the remaining nodes. -/
theorem sendReturns_run {s : Cluster N C} {k : ℕ} (hk : k < s.tasks.length) {i : N}
    {kind : TaskKind} {pc : Pc N C} {now : ℚ} {rest : List N}
    (hrest : ∀ (t : Cluster N C) (pc : Pc N C), k < t.tasks.length →
      ∃ acts s', (t.sendNext cfg k ⟨i, kind, pc⟩ rest).run cfg acts = some s' ∧
        s'.nodes = (sendLoop cfg i now rest t.nodes).1)
    (o : RaftNode.Outgoing N C) (response : Option (Message N Response)) :
    ∃ acts s', (s.sendReturns cfg k ⟨i, kind, pc⟩ o rest response).run cfg acts = some s' ∧
      s'.nodes = match (s.nodes i).handleResponse o response with
        | none => s.nodes
        | some (n, _) => (sendLoop cfg i now rest (Function.update s.nodes i n)).1 := by
  unfold sendReturns
  dsimp only
  cases (s.nodes i).handleResponse o response with
  | none => exact ⟨[], _, rfl, rfl⟩
  | some next =>
    obtain ⟨n, suspended⟩ := next
    cases suspended with
    | false => exact hrest (s.setNode i n) pc hk
    | true =>
      -- `_step_down` returns and the loop goes on
      dsimp only
      generalize hdown : (s.setNode i n).setPc k ⟨i, kind, pc⟩ (.steppingDown rest) = down
      have htask : down.tasks[k]? = some ⟨i, kind, .steppingDown rest⟩ := by
        rw [← hdown]
        exact List.getElem?_set_self hk
      have hresume : down.step cfg (.resume k) =
          some (down.sendNext cfg k ⟨i, kind, .steppingDown rest⟩ rest) := by
        simp [step, htask]
      obtain ⟨more, s', hrun, hmore⟩ := hrest down (.steppingDown rest)
        (List.getElem?_eq_some_iff.mp htask).1
      refine ⟨.resume k :: more, s', (Transition.run_of_step hresume more).trans hrun, ?_⟩
      rw [hmore, ← hdown]
      rfl

/-- The loop over the remaining nodes can run with every RPC answered at once. -/
theorem sendNext_run {s : Cluster N C} {k : ℕ} (hk : k < s.tasks.length) (i : N)
    (kind : TaskKind) (pc : Pc N C) (now : ℚ) (targets : List N) :
    ∃ acts s', (s.sendNext cfg k ⟨i, kind, pc⟩ targets).run cfg acts = some s' ∧
      s'.nodes = (sendLoop cfg i now targets s.nodes).1 := by
  induction targets generalizing s pc with
  | nil =>
    unfold sendLoop RaftNode.commitAll
    cases hsuspended : ((s.nodes i).tryCommit cfg).2 with
    | false => exact ⟨[], _, rfl, rfl⟩
    | true =>
      have ht : (s.applied k ⟨i, kind, pc⟩ ((s.nodes i).tryCommit cfg)).tasks[k]? =
          some ⟨i, kind, .applying⟩ := by
        unfold applied
        rw [hsuspended]
        exact List.getElem?_set_self hk
      obtain ⟨acts, s', -, hrun, hnodes, -⟩ := applied_run cfg ht _ le_rfl
      refine ⟨acts, s', hrun, hnodes.trans ?_⟩
      have hself : (s.applied k ⟨i, kind, pc⟩ ((s.nodes i).tryCommit cfg)).nodes i =
          ((s.nodes i).tryCommit cfg).1 := nodes_setNode_self s i _
      rw [hself]
      exact Function.update_idem ..
  | cons d rest ih =>
    unfold sendNext sendLoop
    cases hls : (s.nodes i).leaderState with
    | none => exact ⟨[], _, rfl, rfl⟩
    | some ls =>
      dsimp only
      generalize (s.nodes i).outgoing ls d = o
      generalize (s.nodes i).appendEntriesMessage i o = message
      generalize hposted : (s.post i d message).setPc k ⟨i, kind, pc⟩
        (.sending o s.rpcs.length rest) = posted
      have hnodes : posted.nodes = s.nodes := by rw [← hposted]; rfl
      have hrpc : posted.rpcs[s.rpcs.length]? = some ⟨i, d, message, .inFlight⟩ := by
        rw [← hposted]
        exact getElem?_post s i d message
      have htask : posted.tasks[k]? = some ⟨i, kind, .sending o s.rpcs.length rest⟩ := by
        rw [← hposted]
        exact List.getElem?_set_self hk
      have hk' : k < posted.tasks.length := (List.getElem?_eq_some_iff.mp htask).1
      obtain ⟨acts, -, hacts⟩ := send_run cfg htask hrpc rfl now
      rw [hnodes] at hacts
      generalize (s.nodes d).answer d now message = result at hacts ⊢
      generalize hanswered : posted.withHandler s.rpcs.length ⟨i, d, message, .inFlight⟩ result.1
        (.answered result.2) = answered at hacts
      have hnodes' : answered.nodes = Function.update s.nodes d result.1 := by
        rw [← hanswered, ← hnodes]
        rfl
      have hk'' : k < answered.tasks.length := by
        rw [← hanswered]
        exact hk'
      obtain ⟨more, s', hrun, hmore⟩ := sendReturns_run cfg hk''
        (fun t pc ht => ih ht pc) o (some result.2)
      refine ⟨acts ++ more, s', (Transition.run_append_of_run hacts more).trans hrun, ?_⟩
      rw [hmore, ← hnodes']
      cases (answered.nodes i).handleResponse o (some result.2) with
      | none => rfl
      | some next => rfl

/-- A call of `_send_append_entries` can run with every RPC answered at once. -/
theorem sendRound_run {s : Cluster N C} {k : ℕ} {i : N}
    (ht : s.tasks[k]? = some ⟨i, .heartbeat, .looping⟩) (hs : (s.nodes i).state = .leader)
    (now : ℚ) :
    ∃ acts s', s.run cfg (.heartbeat k :: acts) = some s' ∧
      s'.nodes = (sendRound cfg i now s.nodes).1 := by
  have hstep : s.step cfg (.heartbeat k) =
      some (s.sendAppendEntries cfg k ⟨i, .heartbeat, .looping⟩) := by
    simp [step, ht, hs]
  unfold sendAppendEntries at hstep
  unfold sendRound
  by_cases hskip : (s.nodes i).state ≠ .leader ∨ (s.nodes i).leaderState.isNone
  · rw [if_pos hskip] at hstep ⊢
    exact ⟨[], _, Transition.run_single hstep, rfl⟩
  · rw [if_neg hskip] at hstep ⊢
    obtain ⟨acts, s', hrun, hnodes⟩ := sendNext_run cfg
      (List.getElem?_eq_some_iff.mp ht).1 i .heartbeat .looping now (cfg.getOtherNodes i)
    exact ⟨acts, s', (Transition.run_of_step hstep acts).trans hrun, hnodes⟩

end Cluster

/-! ## What the rounds keep -/

section Rounds

variable {cfg : Config N} {i f : N} {now : ℚ} {L : List (LogEntry C)} {T : ℕ}
  {nodes : N → RaftNode N C} {ls : LeaderState N}

/-- Node `i` leads term `T` with the log `L`, and no other node is in a later term. -/
structure Leading (cfg : Config N) (i : N) (L : List (LogEntry C)) (T : ℕ)
    (nodes : N → RaftNode N C) (ls : LeaderState N) : Prop where
  state : (nodes i).state = .leader
  leaderState : (nodes i).leaderState = some ls
  log : (nodes i).persistent.log = L
  term : (nodes i).persistent.currentTerm = T
  terms : ∀ j ∈ cfg.getOtherNodes i, (nodes j).persistent.currentTerm ≤ T

/-- The exchange with node `d`. -/
def exchange (i : N) (now : ℚ) (nodes : N → RaftNode N C) (ls : LeaderState N) (d : N) :
    Exchange N C where
  sent := (nodes i).outgoing ls d
  response := ((nodes d).answer d now
    ((nodes i).appendEntriesMessage i ((nodes i).outgoing ls d))).2

/-- The nodes after the exchange with node `d`. -/
def exchanged (i : N) (now : ℚ) (nodes : N → RaftNode N C) (ls : LeaderState N) (d : N) :
    N → RaftNode N C :=
  Function.update (Function.update nodes d ((nodes d).answer d now
    ((nodes i).appendEntriesMessage i ((nodes i).outgoing ls d))).1) i
    { nodes i with
      leaderState := some (RaftNode.book ls (exchange i now nodes ls d).sent
        (exchange i now nodes ls d).response.payload.success) }

/-- A node in no later term answers in the term of the AppendEntries. -/
theorem RaftNode.answer_term {nodeId src leaderId : N} {n : RaftNode N C} {term prev prevTerm : ℕ}
    {entries : List (LogEntry C)} {leaderCommit : ℕ} (hterm : n.persistent.currentTerm ≤ term) :
    let result := n.answer nodeId now
      ⟨src, term, .appendEntries leaderId prev prevTerm entries leaderCommit⟩
    result.1.persistent.currentTerm = term ∧ result.2.term = term := by
  intro result
  cases hm : n.matchesPrev prev prevTerm with
  | false =>
    have heq : result = _ := answer_appendEntries_of_not_matches hterm hm
    rw [heq]
    exact ⟨currentTerm_afterTermCheck hterm, rfl⟩
  | true =>
    obtain ⟨a, calls, heq⟩ := answer_appendEntries_of_matches nodeId now src leaderId
      entries leaderCommit hterm hm
    change result = _ at heq
    obtain ⟨file, hmerged⟩ := mergeEntries_eq ((n.afterTermCheck term).heard now leaderId) entries
    rw [heq]
    refine ⟨?_, rfl⟩
    show (mergeEntries _ entries).persistent.currentTerm = term
    rw [hmerged]
    exact currentTerm_afterTermCheck hterm

theorem Leading.sendLoop_cons (h : Leading cfg i L T nodes ls) {d : N}
    (hd : d ∈ cfg.getOtherNodes i) (rest : List N) :
    sendLoop cfg i now (d :: rest) nodes =
      ((sendLoop cfg i now rest (exchanged i now nodes ls d)).1,
        exchange i now nodes ls d :: (sendLoop cfg i now rest (exchanged i now nodes ls d)).2) := by
  have hne : i ≠ d := (Config.mem_getOtherNodes.mp hd).2.symm
  have hterm : (exchange i now nodes ls d).response.term ≤ (nodes i).persistent.currentTerm := by
    rw [h.term]
    refine (RaftNode.answer_term ?_).2.le.trans h.term.le
    rw [h.term]
    exact h.terms d hd
  have hresponse := RaftNode.handleResponse_of_le (exchange i now nodes ls d).sent h.leaderState
    hterm
  rw [sendLoop]
  simp only [h.leaderState, Function.update_of_ne hne]
  change (match (nodes i).handleResponse (exchange i now nodes ls d).sent
    (some (exchange i now nodes ls d).response) with
    | none => _
    | some (n, _) => _) = _
  rw [hresponse]
  rfl

theorem exchanged_self (i : N) (now : ℚ) (nodes : N → RaftNode N C) (ls : LeaderState N) (d : N) :
    exchanged i now nodes ls d i = { nodes i with
      leaderState := some (RaftNode.book ls (exchange i now nodes ls d).sent
        (exchange i now nodes ls d).response.payload.success) } :=
  Function.update_self ..

variable (now nodes ls) in
theorem exchanged_receiver {d : N} (h : d ≠ i) :
    exchanged i now nodes ls d d = ((nodes d).answer d now
      ((nodes i).appendEntriesMessage i ((nodes i).outgoing ls d))).1 := by
  rw [exchanged, Function.update_of_ne h, Function.update_self]

theorem exchanged_of_ne {d j : N} (hi : j ≠ i) (hd : j ≠ d) :
    exchanged i now nodes ls d j = nodes j := by
  rw [exchanged, Function.update_of_ne hi, Function.update_of_ne hd]

variable (now) in
theorem Leading.exchanged (h : Leading cfg i L T nodes ls) {d : N}
    (hd : d ∈ cfg.getOtherNodes i) :
    Leading cfg i L T (exchanged i now nodes ls d)
      (RaftNode.book ls (exchange i now nodes ls d).sent
        (exchange i now nodes ls d).response.payload.success) := by
  have hself := exchanged_self i now nodes ls d
  refine ⟨by rw [hself]; exact h.state, by rw [hself], by rw [hself]; exact h.log,
    by rw [hself]; exact h.term, fun j hj => ?_⟩
  have hne : j ≠ i := (Config.mem_getOtherNodes.mp hj).2
  rcases eq_or_ne j d with rfl | hjd
  · rw [exchanged_receiver now nodes ls hne]
    refine (RaftNode.answer_term ?_).1.le.trans h.term.le
    rw [h.term]
    exact h.terms j hd
  · rw [exchanged_of_ne hne hjd]
    exact h.terms j hj

/-- What `leader_state` says of `f`. -/
def SameFor (f : N) (ls ls' : LeaderState N) : Prop :=
  ls'.nextIndex.get? f = ls.nextIndex.get? f ∧ ls'.matchIndex.get? f = ls.matchIndex.get? f

theorem SameFor.trans {ls' ls'' : LeaderState N} (h : SameFor f ls ls')
    (h' : SameFor f ls' ls'') : SameFor f ls ls'' :=
  ⟨h'.1.trans h.1, h'.2.trans h.2⟩

theorem Leading.commitAll (h : Leading cfg i L T nodes ls) :
    Leading cfg i L T (Function.update nodes i ((nodes i).commitAll cfg)) ls := by
  obtain ⟨v, calls, heq⟩ := (nodes i).commitAll_eq cfg
  have hself : Function.update nodes i ((nodes i).commitAll cfg) i =
      (nodes i).withVolatile v calls := (Function.update_self ..).trans heq
  refine ⟨by rw [hself]; exact h.state, by rw [hself]; exact h.leaderState,
    by rw [hself]; exact h.log, by rw [hself]; exact h.term, fun j hj => ?_⟩
  rw [Function.update_of_ne (Config.mem_getOtherNodes.mp hj).2]
  exact h.terms j hj

variable (now) in
/-- The exchanges with other nodes are nothing to `f`. -/
theorem Leading.sendLoop_spares (h : Leading cfg i L T nodes ls) (hf : f ≠ i) {targets : List N}
    (htargets : ∀ d ∈ targets, d ∈ cfg.getOtherNodes i) (hnot : f ∉ targets) :
    ∃ ls', Leading cfg i L T (sendLoop cfg i now targets nodes).1 ls' ∧ SameFor f ls ls' ∧
      (sendLoop cfg i now targets nodes).1 f = nodes f := by
  induction targets generalizing nodes ls with
  | nil => exact ⟨ls, h.commitAll, ⟨rfl, rfl⟩, Function.update_of_ne hf _ _⟩
  | cons d rest ih =>
    have hd := htargets d (List.mem_cons_self ..)
    have hne : f ≠ d := fun heq => hnot (heq ▸ List.mem_cons_self ..)
    obtain ⟨ls', hlead, hsame, hnode⟩ := ih (h.exchanged now hd)
      (fun x hx => htargets x (List.mem_cons_of_mem _ hx))
      (fun hm => hnot (List.mem_cons_of_mem _ hm))
    rw [h.sendLoop_cons hd]
    refine ⟨ls', hlead, SameFor.trans (RaftNode.get?_book_of_ne hne.symm _) hsame, ?_⟩
    rw [hnode, exchanged_of_ne hf hne]

variable (now) in
/-- The loop comes to `f` once, with what `leader_state` said of it before. -/
theorem Leading.sendLoop_reaches (h : Leading cfg i L T nodes ls) (hf : f ≠ i)
    {targets : List N} (htargets : ∀ d ∈ targets, d ∈ cfg.getOtherNodes i)
    (hnodup : targets.Nodup) (hmem : f ∈ targets) :
    ∃ nodes' ls' ls'', Leading cfg i L T nodes' ls' ∧ SameFor f ls ls' ∧ nodes' f = nodes f ∧
      exchange i now nodes' ls' f ∈ (sendLoop cfg i now targets nodes).2 ∧
      Leading cfg i L T (sendLoop cfg i now targets nodes).1 ls'' ∧
      SameFor f (RaftNode.book ls' (exchange i now nodes' ls' f).sent
        (exchange i now nodes' ls' f).response.payload.success) ls'' ∧
      (sendLoop cfg i now targets nodes).1 f = Pynchronize.exchanged i now nodes' ls' f f := by
  induction targets generalizing nodes ls with
  | nil => cases hmem
  | cons d rest ih =>
    have hd := htargets d (List.mem_cons_self ..)
    have hrest : ∀ x ∈ rest, x ∈ cfg.getOtherNodes i := fun x hx =>
      htargets x (List.mem_cons_of_mem _ hx)
    obtain ⟨hd', hnodup'⟩ := List.nodup_cons.mp hnodup
    rw [h.sendLoop_cons hd]
    rcases eq_or_ne f d with rfl | hne
    · obtain ⟨ls'', hlead, hsame, hnode⟩ :=
        (h.exchanged now hd).sendLoop_spares now hf hrest hd'
      exact ⟨nodes, ls, ls'', h, ⟨rfl, rfl⟩, rfl, List.mem_cons_self .., hlead, hsame, hnode⟩
    · have hmem' := (List.mem_cons.mp hmem).resolve_left hne
      obtain ⟨nodes', ls', ls'', hlead', hsame', hnode', hx, hrest'⟩ :=
        ih (h.exchanged now hd) hrest hnodup' hmem'
      refine ⟨nodes', ls', ls'', hlead', ?_, ?_, List.mem_cons_of_mem _ hx, hrest'⟩
      · exact SameFor.trans (RaftNode.get?_book_of_ne hne.symm _) hsame'
      · rw [hnode', exchanged_of_ne hf hne]

/-! ## The exchange with the follower -/

omit [DecidableEq N] in
/-- A log that matches and has the entry before the new ones has the leader's log up to there. -/
theorem take_eq_of_matching {n : RaftNode N C} {prev prevTerm : ℕ} (hprev : prev ≤ L.length)
    (hmatch : Matching n.persistent.log L)
    (hprevTerm : ∀ e, 0 < prev → L[prev - 1]? = some e → prevTerm = e.term)
    (hm : n.matchesPrev prev prevTerm = true) : n.persistent.log.take prev = L.take prev := by
  rcases RaftNode.matchesPrev_eq_true hm with rfl | ⟨e, hpos, he, hterm⟩
  · rfl
  · obtain ⟨y, hy⟩ : ∃ y, L[prev - 1]? = some y := ⟨_, List.getElem?_eq_getElem (by omega)⟩
    have htake := hmatch (prev - 1) e y he hy (hterm.trans (hprevTerm y hpos hy))
    rwa [Nat.sub_add_cancel hpos] at htake

/-- What a round does for `f`, `next` being its `next_index`: a refusal moves `next_index` back, an
    acceptance makes the log of `f` that of the leader. -/
inductive Progress (L : List (LogEntry C)) (f : N) (next : ℕ) (x : Exchange N C)
    (n n' : RaftNode N C) (ls' : LeaderState N) : Prop
  | refused (hx : x.response.payload.success = false) (hnext : 1 < next)
      (hlog : n'.persistent.log = n.persistent.log)
      (hindex : ls'.nextIndex.get? f = some (next - 1))
  | accepted (hx : x.response.payload.success = true)
      (hlog : n'.persistent.log.take L.length = L)
      (hindex : x.sent.entries ≠ [] → ls'.matchIndex.get? f = some L.length)

theorem RaftNode.outgoing_of_nextIndex (n : RaftNode N C) {next : ℕ}
    (hindex : ls.nextIndex.get? f = some next) :
    n.outgoing ls f = ⟨f, next, next - 1,
      if next ≤ n.persistent.log.length then n.persistent.log.drop (next - 1) else []⟩ := by
  simp [outgoing, hindex]

/-- The AppendEntries to `f` names the entry before its `next_index`. -/
theorem RaftNode.message_of_nextIndex (n : RaftNode N C) {next : ℕ}
    (hindex : ls.nextIndex.get? f = some next) :
    ∃ prevTerm, n.appendEntriesMessage i (n.outgoing ls f) =
        ⟨i, n.persistent.currentTerm, .appendEntries i (next - 1) prevTerm
          (n.outgoing ls f).entries n.volatile.commitIndex⟩ ∧
      ∀ e, 0 < next - 1 → n.persistent.log[next - 1 - 1]? = some e → prevTerm = e.term := by
  rw [n.outgoing_of_nextIndex hindex]
  refine ⟨_, rfl, fun e hpos he => ?_⟩
  obtain ⟨p, hp⟩ : ∃ p, next - 1 = p + 1 := ⟨next - 2, by omega⟩
  dsimp only
  rw [hp] at he ⊢
  rw [getLogEntry_succ, ← Nat.add_sub_cancel (n := p) (m := 1), he]

/-- The entries for `f` are those of the log from its `next_index` on. -/
theorem RaftNode.entries_of_nextIndex (n : RaftNode N C) {next : ℕ}
    (hindex : ls.nextIndex.get? f = some next) (hpos : 1 ≤ next)
    (hle : next ≤ n.persistent.log.length + 1) :
    next - 1 + (n.outgoing ls f).entries.length = n.persistent.log.length ∧
      n.persistent.log.take (next - 1) ++ (n.outgoing ls f).entries <+: n.persistent.log := by
  rw [n.outgoing_of_nextIndex hindex]
  dsimp only
  split
  · rw [List.length_drop, List.take_append_drop]
    exact ⟨by omega, List.prefix_rfl⟩
  · rw [List.append_nil]
    exact ⟨by rw [List.length_nil]; omega, List.take_prefix _ _⟩

variable (now) in
theorem Leading.progress (h : Leading cfg i L T nodes ls) (hf : f ∈ cfg.getOtherNodes i)
    (hL : Indexed L) {next : ℕ} (hindex : ls.nextIndex.get? f = some next) (hpos : 1 ≤ next)
    (hle : next ≤ L.length + 1) (hmatch : Matching (nodes f).persistent.log L) :
    Progress L f next (exchange i now nodes ls f) (nodes f)
      (Pynchronize.exchanged i now nodes ls f f)
      (RaftNode.book ls (exchange i now nodes ls f).sent
        (exchange i now nodes ls f).response.payload.success) := by
  classical
  have hterm : (nodes f).persistent.currentTerm ≤ (nodes i).persistent.currentTerm := by
    rw [h.term]
    exact h.terms f hf
  obtain ⟨prevTerm, hmessage, hprevTerm⟩ :=
    (nodes i).message_of_nextIndex (i := i) hindex
  have hsent := (nodes i).outgoing_of_nextIndex hindex
  have hreceiver := exchanged_receiver now nodes ls (Config.mem_getOtherNodes.mp hf).2
  have hresponse : (exchange i now nodes ls f).response = ((nodes f).answer f now
    ((nodes i).appendEntriesMessage i ((nodes i).outgoing ls f))).2 := rfl
  rw [hmessage] at hreceiver hresponse
  cases hm : (nodes f).matchesPrev (next - 1) prevTerm with
  | false =>
    rw [RaftNode.answer_appendEntries_of_not_matches hterm hm] at hreceiver hresponse
    have hnext : 1 < next := by
      by_contra hone
      have hzero : next - 1 = 0 := by omega
      rw [hzero] at hm
      cases hm
    refine .refused (by rw [hresponse]; rfl) hnext ?_ ?_
    · rw [hreceiver]
      exact RaftNode.log_afterTermCheck _ _
    · rw [hresponse]
      show (ls.nextIndex.set f (max 1 (((nodes i).outgoing ls f).nextIdx - 1))).get? f = _
      have hback : max 1 (next - 1) = next - 1 := Nat.max_eq_right (by omega)
      rw [Dict.get?_set_self, hsent, hback]
  | true =>
    have hprevLe : next - 1 ≤ L.length := by omega
    obtain ⟨hlast, hslice⟩ := (nodes i).entries_of_nextIndex hindex hpos (h.log.symm ▸ hle)
    rw [h.log] at hlast hslice hprevTerm
    have htake := take_eq_of_matching hprevLe hmatch hprevTerm hm
    have hmerge := foldl_mergeEntry hL hslice hprevLe htake hmatch
    rw [hlast] at hmerge
    have hlog : (Pynchronize.exchanged i now nodes ls f f).persistent.log =
        Replication.mergeTake L L.length (nodes f).persistent.log := by
      rw [hreceiver, RaftNode.log_answer_of_matches hterm hm, hmerge]
    obtain ⟨a, calls, hanswer⟩ := RaftNode.answer_appendEntries_of_matches f now i i
      ((nodes i).outgoing ls f).entries (nodes i).volatile.commitIndex hterm hm
    rw [hanswer] at hresponse
    refine .accepted (by rw [hresponse]; rfl) ?_ fun hsome => ?_
    · have hprefix := Replication.take_prefix_mergeTake L L.length (nodes f).persistent.log
      rw [List.take_length] at hprefix
      rw [hlog, take_eq_of_isPrefix hprefix le_rfl, List.take_length]
    · rw [hresponse]
      have hempty : ((nodes i).outgoing ls f).entries.isEmpty = false :=
        List.isEmpty_eq_false_iff.mpr hsome
      show (if ((nodes i).outgoing ls f).entries.isEmpty then ls else
        { nextIndex := ls.nextIndex.set f _
          matchIndex := ls.matchIndex.set f (((nodes i).outgoing ls f).prevLogIndex +
            ((nodes i).outgoing ls f).entries.length) }).matchIndex.get? f = _
      rw [hempty, if_neg Bool.false_ne_true, Dict.get?_set_self, ← hlast]
      rw [hsent]

/-! ## Rounds -/

theorem Leading.sendRound_eq (h : Leading cfg i L T nodes ls) :
    sendRound cfg i now nodes = sendLoop cfg i now (cfg.getOtherNodes i) nodes := by
  unfold sendRound
  rw [if_neg]
  rintro (hs | hnone)
  · exact hs h.state
  · rw [h.leaderState] at hnone
    cases hnone

/-- One round brings `f` forward. -/
theorem Leading.sendRound_progress (h : Leading cfg i L T nodes ls) (hf : f ∈ cfg.getOtherNodes i)
    (hL : Indexed L) {next : ℕ} (hindex : ls.nextIndex.get? f = some next) (hpos : 1 ≤ next)
    (hle : next ≤ L.length + 1) (hmatch : Matching (nodes f).persistent.log L) (now : ℚ) :
    ∃ x ∈ (sendRound cfg i now nodes).2, x.sent.nodeId = f ∧ ∃ ls',
      Leading cfg i L T (sendRound cfg i now nodes).1 ls' ∧
      Progress L f next x (nodes f) ((sendRound cfg i now nodes).1 f) ls' := by
  obtain ⟨nodes', ls', ls'', hlead, hsame, hnode, hx, hlead', hsame', hnode'⟩ :=
    h.sendLoop_reaches now (Config.mem_getOtherNodes.mp hf).2 (fun d hd => hd)
      (cfg.nodup.filter _) hf
  have hprogress := hlead.progress now hf hL (hsame.1.trans hindex) hpos hle
    (hnode ▸ hmatch)
  rw [h.sendRound_eq, hnode']
  refine ⟨_, hx, rfl, ls'', hlead', ?_⟩
  rw [hnode] at hprogress
  cases hprogress with
  | refused hfail hnext hlog hindex' => exact .refused hfail hnext hlog (hsame'.1.trans hindex')
  | accepted hsucc hlog hindex' =>
    exact .accepted hsucc hlog fun hsent => hsame'.2.trans (hindex' hsent)

/-- Among the first `next_index` rounds one gets an acceptance, and it repairs the follower. -/
theorem catch_up (hlead : Leading cfg i L T nodes ls) (hf : f ∈ cfg.getOtherNodes i)
    (hL : Indexed L) {next : ℕ} (hindex : ls.nextIndex.get? f = some next) (hpos : 1 ≤ next)
    (hle : next ≤ L.length + 1) (hmatch : Matching (nodes f).persistent.log L) {times : List ℚ}
    (htimes : times.length = next) :
    ∃ before now after, times = before ++ now :: after ∧
      ∃ x ∈ (sendRound cfg i now (afterRounds cfg i before nodes)).2, x.sent.nodeId = f ∧
        x.response.payload.success = true ∧
        (afterRounds cfg i (before ++ [now]) nodes f).persistent.log.take L.length = L ∧
        (x.sent.entries ≠ [] →
          ∃ ls', (afterRounds cfg i (before ++ [now]) nodes i).leaderState = some ls' ∧
            ls'.matchIndex.get? f = some L.length) := by
  induction times generalizing nodes ls next with
  | nil =>
    have : next = 0 := htimes.symm
    omega
  | cons now rest ih =>
    obtain ⟨x, hx, hto, ls', hlead', hprogress⟩ :=
      hlead.sendRound_progress hf hL hindex hpos hle hmatch now
    cases hprogress with
    | accepted hsucc hlog hindex' =>
      exact ⟨[], now, rest, rfl, x, hx, hto, hsucc, hlog, fun hsent =>
        ⟨ls', hlead'.leaderState, hindex' hsent⟩⟩
    | refused hfail hnext hlog hindex' =>
      have hlength : rest.length = next - 1 := by
        simp only [List.length_cons] at htimes
        omega
      obtain ⟨before, now', after, htimes', hrest⟩ :=
        ih hlead' hindex' (by omega) (by omega) (hlog ▸ hmatch) hlength
      exact ⟨now :: before, now', after, by rw [htimes']; rfl, hrest⟩

end Rounds

open scoped Cluster in
/-- Node 0 leads term 2; the second entry of node 1 is one of term 1, and node 2 has no log. -/
def leaderAndFollowers (j : Fin 3) : RaftNode (Fin 3) ℕ :=
  if j = 0 then
    { RaftNode.boot none 0 with
      state := .leader
      persistent := { currentTerm := 2, log := [⟨1, 1, 11⟩, ⟨2, 2, 22⟩] }
      leaderState := some
        { nextIndex := (Dict.empty.set 1 3).set 2 3, matchIndex := (Dict.empty.set 1 0).set 2 0 } }
  else if j = 1 then
    { RaftNode.boot none 0 with
      persistent := { currentTerm := 1, log := [⟨1, 1, 11⟩, ⟨1, 2, 12⟩] } }
  else RaftNode.boot none 0

/-- The first round is refused, the second replaces the entry of term 1. -/
theorem catch_up_conflict :
    ∃ (before : List ℚ) (now : ℚ) (after : List ℚ), [5, 6, 7] = before ++ now :: after ∧
      (afterRounds Cluster.threeNodes 0 (before ++ [now])
        leaderAndFollowers 1).persistent.log.take 2 = [⟨1, 1, 11⟩, ⟨2, 2, 22⟩] := by
  have hlead : Leading Cluster.threeNodes 0 [⟨1, 1, 11⟩, ⟨2, 2, 22⟩] 2 leaderAndFollowers
      { nextIndex := (Dict.empty.set 1 3).set 2 3, matchIndex := (Dict.empty.set 1 0).set 2 0 } :=
    ⟨rfl, rfl, rfl, rfl, by decide⟩
  have hmatch : Matching (leaderAndFollowers 1).persistent.log [⟨1, 1, 11⟩, ⟨2, 2, 22⟩] := by
    intro p e e' he he' hterm
    rcases p with _ | _ | p
    · rfl
    · obtain rfl := Option.some.inj he
      obtain rfl := Option.some.inj he'
      cases hterm
    · cases he
  have hf : 1 ∈ Cluster.threeNodes.getOtherNodes 0 := by decide
  have htimes : ([5, 6, 7] : List ℚ).length = 3 := rfl
  obtain ⟨before, now, after, hsplit, x, -, -, -, hlog, -⟩ := catch_up hlead hf
    ((indexed_nil.append rfl).append rfl) (by decide) (by decide) (by decide) hmatch htimes
  exact ⟨before, now, after, hsplit, hlog⟩

end Pynchronize
