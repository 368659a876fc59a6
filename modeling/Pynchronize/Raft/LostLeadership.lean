import Pynchronize.Raft.Safety
import Pynchronize.Raft.Terms

/-!
# Losing leadership during replication

`_send_append_entries` reads `leader_state` again after every `await`, and
`_step_down` sets it to `None`. The call raises exactly when it is woken on a
node that leads no more and has nodes left in its loop or an answer to book.
-/

namespace Pynchronize

open Lib

variable {N C : Type*}

/-- The coroutine has ended with an exception. -/
def Pc.isRaised : Pc N C → Bool
  | .raised => true
  | _ => false

def Pc.isApplying : Pc N C → Bool
  | .applying => true
  | _ => false

/-- `leader_state` is there exactly while the node is LEADER. -/
def RaftNode.Leads (n : RaftNode N C) : Prop :=
  n.leaderState.isSome = true ↔ n.state = .leader

/-- `_send_append_entries` goes on to read `leader_state` if this response arrives while the node
    is in term `currentTerm`. -/
def RaftNode.Outgoing.needsLeaderState (o : RaftNode.Outgoing N C) (rest : List N)
    (currentTerm : ℕ) : Option (Message N Response) → Bool
  | none => !rest.isEmpty
  | some response =>
    if response.payload.success then !o.entries.isEmpty || !rest.isEmpty
    else response.term ≤ currentTerm

theorem RaftNode.leads_of_none {n : RaftNode N C} (hls : n.leaderState = none)
    (hs : n.state ≠ .leader) : n.Leads := by
  constructor
  · intro hsome
    rw [hls] at hsome
    cases hsome
  · exact fun hlead => absurd hlead hs

theorem RaftNode.Leads.isNone_eq {n : RaftNode N C} (h : n.Leads) :
    n.leaderState.isNone = (n.state != .leader) := by
  have h : n.leaderState.isSome = true ↔ n.state = .leader := h
  cases hls : n.leaderState with
  | none =>
    have hne : n.state ≠ .leader := fun hs => by
      rw [hls] at h
      cases h.mpr hs
    simp [hne]
  | some ls =>
    have hs : n.state = .leader := h.mp (by rw [hls]; rfl)
    simp [hs]

namespace Cluster

variable {s s' : Cluster N C}

/-- A coroutine ends with an exception that does not come out of `command_handler`. -/
def Raises (s s' : Cluster N C) : Prop :=
  ∃ (k : ℕ) (t' : Task N C), s'.tasks[k]? = some t' ∧ t'.pc.isRaised = true ∧
    ∀ t : Task N C, s.tasks[k]? = some t → t.pc.isRaised = false ∧ t.pc.isApplying = false

/-- The action wakes a call of `_send_append_entries` whose node leads no more and that still needs
    `leader_state`. -/
def strandsCall (s : Cluster N C) : Action N C → Bool
  | .reply k =>
    match s.tasks[k]? with
    | some ⟨i, _, .sending o j rest⟩ =>
      (s.nodes i).state != .leader && (s.answerOf j).any fun response =>
        o.needsLeaderState rest (s.nodes i).persistent.currentTerm (some response)
    | _ => false
  | .noReply k =>
    match s.tasks[k]? with
    | some ⟨i, _, .sending o _ rest⟩ =>
      (s.nodes i).state != .leader &&
        o.needsLeaderState rest (s.nodes i).persistent.currentTerm none
    | _ => false
  | .resume k =>
    match s.tasks[k]? with
    | some ⟨i, _, .steppingDown rest⟩ => (s.nodes i).state != .leader && !rest.isEmpty
    | _ => false
  | _ => false

/-! ## What a step does to the coroutines -/

theorem not_raises_of_tasks (h : s'.tasks = s.tasks) : ¬ Raises s s' := by
  rintro ⟨k, t, ht, hraised, hbefore⟩
  rw [h] at ht
  rw [(hbefore t ht).1] at hraised
  cases hraised

theorem not_raises_of_map {f : Task N C → Task N C}
    (hf : ∀ t, (f t).pc.isRaised = true → t.pc.isRaised = true)
    (h : s'.tasks = s.tasks.map f) : ¬ Raises s s' := by
  rintro ⟨k, t, ht, hraised, hbefore⟩
  rw [h, List.getElem?_map] at ht
  obtain ⟨t₀, ht₀, rfl⟩ := Option.map_eq_some_iff.mp ht
  have := hf t₀ hraised
  rw [(hbefore t₀ ht₀).1] at this
  cases this

/-- The coroutine `k` goes on to `pc`. -/
theorem raises_of_set {k : ℕ} {t : Task N C} {pc : Pc N C} (ht : s.tasks[k]? = some t)
    (hraised : t.pc.isRaised = false) (happlying : t.pc.isApplying = false)
    (h : s'.tasks = s.tasks.set k { t with pc := pc }) :
    Raises s s' ↔ pc.isRaised = true := by
  constructor
  · rintro ⟨k', t', ht', hraised', hbefore⟩
    rw [h] at ht'
    rcases eq_or_ne k k' with rfl | hne
    · rw [getElem?_set_of_some ht] at ht'
      obtain rfl := Option.some.inj ht'
      exact hraised'
    · rw [List.getElem?_set_ne hne] at ht'
      rw [(hbefore t' ht').1] at hraised'
      cases hraised'
  · intro hpc
    refine ⟨k, _, by rw [h]; exact getElem?_set_of_some ht _, hpc, fun t' ht' => ?_⟩
    obtain rfl := Option.some.inj (ht.symm.trans ht')
    exact ⟨hraised, happlying⟩

/-- Whatever `command_handler` does, no coroutine raises in the loop. -/
theorem not_raises_of_applying {k : ℕ} {t t' : Task N C} (ht : s.tasks[k]? = some t)
    (happlying : t.pc.isApplying = true) (h : s'.tasks = s.tasks.set k t') : ¬ Raises s s' := by
  rintro ⟨k', t'', ht'', hraised, hbefore⟩
  rw [h] at ht''
  rcases eq_or_ne k k' with rfl | hne
  · rw [(hbefore t ht).2] at happlying
    cases happlying
  · rw [List.getElem?_set_ne hne] at ht''
    rw [(hbefore t'' ht'').1] at hraised
    cases hraised

/-- A coroutine that is new in `s'` starts with `pc`. -/
theorem not_raises_of_append {t : Task N C} {pc : Pc N C} (hpc : pc.isRaised = false)
    (h : s'.tasks = s.tasks ++ [{ t with pc := pc }]) : ¬ Raises s s' := by
  rintro ⟨k, t', ht', hraised, hbefore⟩
  rw [h] at ht'
  rcases Nat.lt_or_ge k s.tasks.length with hlt | hge
  · rw [List.getElem?_append_left hlt] at ht'
    rw [(hbefore t' ht').1] at hraised
    cases hraised
  · rw [List.getElem?_append_right hge] at ht'
    rw [List.mem_singleton.mp (List.mem_of_getElem? ht'), hpc] at hraised
    cases hraised

theorem isRaised_afterSend (kind : TaskKind) : (afterSend kind : Pc N C).isRaised = false := by
  cases kind <;> rfl

variable [DecidableEq N] {cfg : Config N}

theorem tasks_applied (s : Cluster N C) (k : ℕ) (t : Task N C) (result : RaftNode N C × Bool) :
    ∃ pc, (s.applied k t result).tasks = s.tasks.set k { t with pc := pc } ∧
      pc.isRaised = false := by
  refine ⟨_, rfl, ?_⟩
  split
  · rfl
  · exact isRaised_afterSend t.kind

/-- The loop raises at its head when there is a node to send to and no `leader_state`. -/
theorem tasks_sendNext (cfg : Config N) (s : Cluster N C) (k : ℕ) (t : Task N C)
    (rest : List N) :
    ∃ pc, (s.sendNext cfg k t rest).tasks = s.tasks.set k { t with pc := pc } ∧
      pc.isRaised = ((s.nodes t.node).leaderState.isNone && !rest.isEmpty) := by
  cases rest with
  | nil =>
    obtain ⟨pc, htasks, hpc⟩ := tasks_applied s k t ((s.nodes t.node).tryCommit cfg)
    exact ⟨pc, htasks, by simp [hpc]⟩
  | cons nodeId rest =>
    unfold sendNext
    cases hls : (s.nodes t.node).leaderState with
    | none => exact ⟨.raised, rfl, by simp [Pc.isRaised]⟩
    | some ls => exact ⟨_, rfl, by simp [Pc.isRaised]⟩

theorem tasks_sendAppendEntries (cfg : Config N) (s : Cluster N C) (k : ℕ) (t : Task N C) :
    ∃ pc, (s.sendAppendEntries cfg k t).tasks = s.tasks.set k { t with pc := pc } ∧
      pc.isRaised = false := by
  unfold sendAppendEntries
  split
  · exact ⟨_, rfl, isRaised_afterSend t.kind⟩
  · rename_i hlead
    obtain ⟨pc, htasks, hpc⟩ := tasks_sendNext cfg s k t (cfg.getOtherNodes t.node)
    refine ⟨pc, htasks, ?_⟩
    have hnone : (s.nodes t.node).leaderState.isNone = false :=
      Bool.eq_false_iff.mpr fun hnone => hlead (Or.inr hnone)
    rw [hpc, hnone]
    rfl

theorem tasks_sendReturns (cfg : Config N) (s : Cluster N C) (k : ℕ) (t : Task N C)
    (o : RaftNode.Outgoing N C) (rest : List N) (response : Option (Message N Response)) :
    ∃ pc, (s.sendReturns cfg k t o rest response).tasks = s.tasks.set k { t with pc := pc } ∧
      pc.isRaised = ((s.nodes t.node).leaderState.isNone &&
        o.needsLeaderState rest (s.nodes t.node).persistent.currentTerm response) := by
  have next : ∀ n : RaftNode N C, n.leaderState.isNone = (s.nodes t.node).leaderState.isNone →
      ∃ pc, ((s.setNode t.node n).sendNext cfg k t rest).tasks =
        s.tasks.set k { t with pc := pc } ∧
        pc.isRaised = ((s.nodes t.node).leaderState.isNone && !rest.isEmpty) := by
    intro n hn
    obtain ⟨pc, htasks, hpc⟩ := tasks_sendNext cfg (s.setNode t.node n) k t rest
    refine ⟨pc, htasks, ?_⟩
    rw [hpc, nodes_setNode_self, hn]
  unfold sendReturns
  cases response with
  | none => exact next (s.nodes t.node) rfl
  | some message =>
    unfold RaftNode.handleResponse RaftNode.Outgoing.needsLeaderState
    dsimp only
    by_cases hsuccess : message.payload.success = true
    · rw [if_pos hsuccess, if_pos hsuccess]
      cases hentries : o.entries.isEmpty with
      | true =>
        simp only [if_true, Bool.not_true, Bool.false_or]
        exact next (s.nodes t.node) rfl
      | false =>
        cases hls : (s.nodes t.node).leaderState with
        | none => exact ⟨.raised, rfl, by simp [Pc.isRaised]⟩
        | some ls =>
          rw [hls] at next
          exact next _ rfl
    · rw [if_neg hsuccess, if_neg hsuccess]
      by_cases hterm : message.term > (s.nodes t.node).persistent.currentTerm
      · -- the node steps down itself
        rw [if_pos hterm]
        exact ⟨_, rfl, by simp [Pc.isRaised, hterm]⟩
      · rw [if_neg hterm]
        cases hls : (s.nodes t.node).leaderState with
        | none => exact ⟨.raised, rfl, by simp [Pc.isRaised, Nat.le_of_not_lt hterm]⟩
        | some ls =>
          rw [hls] at next
          exact next _ rfl

omit [DecidableEq N] in
theorem isRaised_cancelTask {t : Task N C} (h : (cancelTask t).pc.isRaised = true) :
    t.pc.isRaised = true := by
  unfold cancelTask at h
  split at h
  · exact h
  · exact h
  · cases h

theorem not_raises_startHeartbeat (s : Cluster N C) (i : N) : ¬ Raises s (s.startHeartbeat i) := by
  have old : ∀ tasks : List (Task N C), (∀ (k : ℕ) t', tasks[k]? = some t' →
      t'.pc.isRaised = true → ∃ t, s.tasks[k]? = some t ∧ t.pc.isRaised = true) →
      ∀ s' : Cluster N C, s'.tasks = tasks ++ [⟨i, .heartbeat, .looping⟩] → ¬ Raises s s' := by
    rintro tasks htasks s' h ⟨k, t', ht', hraised, hbefore⟩
    rw [h] at ht'
    rcases Nat.lt_or_ge k tasks.length with hlt | hge
    · rw [List.getElem?_append_left hlt] at ht'
      obtain ⟨t, ht, hold⟩ := htasks k t' ht' hraised
      rw [(hbefore t ht).1] at hold
      cases hold
    · rw [List.getElem?_append_right hge] at ht'
      rw [List.mem_singleton.mp (List.mem_of_getElem? ht')] at hraised
      cases hraised
  refine old _ ?_ _ rfl
  intro k t' ht' hraised
  split at ht'
  · rw [List.getElem?_modify] at ht'
    obtain ⟨t, ht, rfl⟩ := Option.map_eq_some_iff.mp ht'
    refine ⟨t, ht, ?_⟩
    split at hraised
    · exact isRaised_cancelTask hraised
    · exact hraised
  · exact ⟨t', ht', hraised⟩

theorem not_raises_restart (s : Cluster N C) (i : N) (file : Option (PersistentState N C))
    (now : ℚ) : ¬ Raises s (s.restart i file now) := by
  refine not_raises_of_map (f := fun t : Task N C => if t.node = i then cancelTask t else t) ?_ rfl
  intro t hraised
  split at hraised
  · exact isRaised_cancelTask hraised
  · exact hraised

/-- In one step the call raises if and only if it is stranded. -/
theorem raises_iff (hleads : ∀ i, (s.nodes i).Leads) {a : Action N C}
    (h : s.step cfg a = some s') : Raises s s' ↔ s.strandsCall a = true := by
  have calm : ¬ Raises s s' → s.strandsCall a = false → (Raises s s' ↔ s.strandsCall a = true) :=
    fun hnot hfalse => by simp [hnot, hfalse]
  cases stepped h with
  | electionTimeout => exact calm (not_raises_of_tasks rfl) rfl
  | electionEnds =>
    refine calm (not_raises_of_tasks ?_) rfl
    unfold countVotes
    split <;> rfl
  | becameLeader => exact calm (not_raises_startHeartbeat s _) rfl
  | @propose i command =>
    refine calm ?_ rfl
    obtain ⟨pc, htasks, hpc⟩ := tasks_sendAppendEntries cfg
      ((s.setNode i ((s.nodes i).appendCommand command)).spawn ⟨i, .propose, .looping⟩)
      s.tasks.length ⟨i, .propose, .looping⟩
    refine not_raises_of_append (t := ⟨i, .propose, .looping⟩) hpc (htasks.trans ?_)
    show (s.tasks ++ [_]).set s.tasks.length _ = _
    rw [List.set_append_right _ _ le_rfl, Nat.sub_self]
    rfl
  | heartbeat ht =>
    refine calm ?_ rfl
    obtain ⟨pc, htasks, hpc⟩ := tasks_sendAppendEntries cfg s _ ⟨_, .heartbeat, .looping⟩
    rw [raises_of_set ht rfl rfl htasks, hpc]
    exact Bool.false_ne_true
  | heartbeatEnds ht =>
    refine calm ?_ rfl
    intro hraises
    cases (raises_of_set ht rfl rfl rfl).mp hraises
  | @reply k j i kind o rest response ht hans =>
    obtain ⟨pc, htasks, hpc⟩ := tasks_sendReturns cfg s k ⟨i, kind, .sending o j rest⟩ o rest
      (some response)
    rw [raises_of_set ht rfl rfl htasks, hpc, (hleads i).isNone_eq]
    simp [strandsCall, ht, hans]
  | @noReply k j i kind o rest ht =>
    obtain ⟨pc, htasks, hpc⟩ := tasks_sendReturns cfg s k ⟨i, kind, .sending o j rest⟩ o rest none
    rw [raises_of_set ht rfl rfl htasks, hpc, (hleads i).isNone_eq]
    simp [strandsCall, ht]
  | @resumeSending k i kind rest ht =>
    obtain ⟨pc, htasks, hpc⟩ := tasks_sendNext cfg s k ⟨i, kind, .steppingDown rest⟩ rest
    rw [raises_of_set ht rfl rfl htasks, hpc, (hleads i).isNone_eq]
    simp [strandsCall, ht]
  | @resumeApplying k i kind ht =>
    refine calm (not_raises_of_applying ht rfl (tasks_applied s k _ _).choose_spec.1) ?_
    simp [strandsCall, ht]
  | raise ht => exact calm (not_raises_of_applying ht rfl rfl) rfl
  | deliver =>
    refine calm (not_raises_of_tasks ?_) rfl
    unfold deliver handle
    split
    · rfl
    · split <;> rfl
  | resumeHandling =>
    refine calm (not_raises_of_tasks ?_) rfl
    unfold handle
    split <;> rfl
  | resumeHandlerApplying => exact calm (not_raises_of_tasks rfl) rfl
  | raiseHandler => exact calm (not_raises_of_tasks rfl) rfl
  | crash => exact calm (not_raises_restart s _ _ _) rfl
  | crashSaving => exact calm (not_raises_restart s _ _ _) rfl

/-! ## Runs -/

theorem leads_step {a : Action N C} (hleads : ∀ i, (s.nodes i).Leads)
    (h : s.step cfg a = some s') (i : N) : (s'.nodes i).Leads := by
  have hi : (s.nodes i).leaderState.isSome = true ↔ (s.nodes i).state = .leader := hleads i
  unfold RaftNode.Leads
  cases termStep_step h i with
  | stays hs => rw [hs.leaderState, hs.leader, hi]
  | stands hs heq =>
    rw [heq]
    refine ⟨fun hsome => absurd (hi.mp hsome) hs, fun hlead => ?_⟩
    cases hlead
  | wins _ _ hs _ hls => exact ⟨fun _ => hs, fun _ => hls⟩
  | votes _ heq =>
    rw [heq]
    exact hi
  | accepts _ _ _ _ _ haccepts => rw [haccepts.leaderState, haccepts.leader, hi]
  | stepsDownOnRequest _ _ _ _ _ heq =>
    rw [heq]
    exact RaftNode.leads_of_none rfl fun hlead => by cases hlead
  | stepsDownOnResponse _ _ _ _ _ heq =>
    rw [heq]
    exact RaftNode.leads_of_none rfl fun hlead => by cases hlead
  | restarts heq =>
    rw [heq]
    exact RaftNode.leads_of_none rfl fun hlead => by cases hlead

omit [DecidableEq N] in
theorem leads_boot (start : N → ℚ) (i : N) : ((boot start : Cluster N C).nodes i).Leads :=
  RaftNode.leads_of_none rfl fun hlead => by cases hlead

/-- Only a call that can go on can be stranded. -/
theorem strandsCall_of_disabled {a : Action N C} (h : s.step cfg a = none) :
    s.strandsCall a = false := by
  cases a with
  | reply k =>
    simp only [step] at h
    simp only [strandsCall]
    split
    · rename_i i kind o j rest ht
      rw [ht] at h
      have hnone : s.answerOf j = none := Option.map_eq_none_iff.mp h
      rw [hnone]
      exact Bool.and_false _
    · rfl
  | noReply k =>
    simp only [step] at h
    simp only [strandsCall]
    split
    · rename_i ht
      rw [ht] at h
      cases h
    · rfl
  | resume k =>
    simp only [step] at h
    simp only [strandsCall]
    split
    · rename_i ht
      rw [ht] at h
      cases h
    · rfl
  | _ => rfl

/-- No call raises for want of `leader_state`, and only a LEADER sends AppendEntries. -/
def Harmless (s s' : Cluster N C) : Prop := ¬ Raises s s' ∧ SentByLeader s s'

theorem harmless_iff (hleads : ∀ i, (s.nodes i).Leads) {a : Action N C}
    (h : s.step cfg a = some s') : Harmless s s' ↔ s.strandsCall a = false := by
  have hsent : SentByLeader s s' := sentByLeader_step (fun t _ => hleads t.node) h
  unfold Harmless
  rw [raises_iff hleads h, Bool.not_eq_true]
  exact and_iff_left hsent

/-- From any state, a run is harmless if and only if it strands no call. -/
theorem replication_harmless_iff {s : Cluster N C} (hleads : ∀ i, (s.nodes i).Leads)
    (acts : List (Action N C)) :
    s.EachStep cfg (fun t a => ∀ t', t.step cfg a = some t' → Harmless t t') acts ↔
      s.EachStep cfg (fun t a => t.strandsCall a = false) acts := by
  induction acts generalizing s with
  | nil => exact Iff.rfl
  | cons a rest ih =>
    cases hstep : s.step cfg a with
    | none =>
      have hfalse := strandsCall_of_disabled hstep
      simp [EachStep, Transition.EachStep, hstep, hfalse]
    | some t =>
      have hfirst := harmless_iff hleads hstep
      have hrest := ih (leads_step hleads hstep)
      simp only [EachStep, Transition.EachStep, hstep, Option.some.injEq, forall_eq'] at hrest ⊢
      rw [hfirst, hrest]

/-- Node 0 replicates to node 1 and gets no answer from node 2. -/
theorem replication_harmless_replication :
    (boot fun _ => 0 : Cluster (Fin 3) ℕ).EachStep threeNodes
      (fun t a => ∀ t', t.step threeNodes a = some t' → Harmless t t')
      (electionOfZero ++ replication) :=
  (replication_harmless_iff (leads_boot fun _ => 0) _).mpr (by decide +kernel)

/-- Node 0 leads term 1 and sends a heartbeat to node 1, which already stands in term 2. -/
def heartbeatRefused : List (Action (Fin 3) ℕ) :=
  electionOfZero ++ [.becameLeader 0, .electionTimeout 1 (1 / 5) 3, .heartbeat 0, .deliver 4 3,
    .reply 0]

/-- Node 0 steps down on the answer of node 1; the loop goes on to node 2 and raises. -/
theorem stepping_down_raises :
    ∃ s s', (boot fun _ => 0 : Cluster (Fin 3) ℕ).run threeNodes heartbeatRefused = some s ∧
      s.step threeNodes (.resume 0) = some s' ∧ Raises s s' := by
  have hrun : ((boot fun _ => 0 : Cluster (Fin 3) ℕ).run threeNodes heartbeatRefused).any
      (fun s => (s.tasks[0]?).any (fun t => !t.pc.isRaised && !t.pc.isApplying) &&
        (s.step threeNodes (.resume 0)).any fun s' =>
          (s'.tasks[0]?).any fun t => t.pc.isRaised) = true := by
    decide +kernel
  obtain ⟨s, hs, hp⟩ := (Option.any_eq_true _ _).mp hrun
  obtain ⟨hbefore, hp⟩ := Bool.and_eq_true_iff.mp hp
  obtain ⟨t, ht, hcalm⟩ := (Option.any_eq_true _ _).mp hbefore
  obtain ⟨s', hs', hany⟩ := (Option.any_eq_true _ _).mp hp
  obtain ⟨t', ht', hraised⟩ := (Option.any_eq_true _ _).mp hany
  refine ⟨s, s', hs, hs', 0, t', ht', hraised, fun t₀ ht₀ => ?_⟩
  obtain rfl := Option.some.inj (ht.symm.trans ht₀)
  simpa using hcalm

end Cluster

end Pynchronize
