import Pynchronize.Lock.Futures

/-!
# Where requests come from

`Tracked` holds in every state of every run, crashes of any kind included:
every command in a log, under way or applied is the one that its call proposed
at that index, and the lock table of a node is the replay of the commands that
the node applied. So no node applies the command of a call twice.
-/

namespace Pynchronize.LockCluster

open Lib

variable {N C R Rid : Type*} [DecidableEq N] [DecidableEq C] [DecidableEq R] [DecidableEq Rid]
  {cfg : LockConfig N C R Rid}

/-! ## What the callbacks leave alone -/

omit [DecidableEq C] [DecidableEq R] in
theorem raft_resolve (s : LockCluster N C R Rid) (i : N) (requestId : Rid) (status : LockStatus) :
    (s.resolve i requestId status).raft = s.raft := by
  unfold resolve
  dsimp only
  split <;> rfl

omit [DecidableEq C] [DecidableEq R] in
theorem replica_resolve (s : LockCluster N C R Rid) (i j : N) (requestId : Rid)
    (status : LockStatus) :
    ((s.resolve i requestId status).managers j).replica = (s.managers j).replica := by
  unfold resolve
  dsimp only
  split
  · show ((s.setManager i _).managers j).replica = _
    rcases eq_or_ne j i with rfl | hne
    · rw [managers_setManager_self]
    · rw [managers_setManager_of_ne s hne]
  · rfl

omit [DecidableEq C] [DecidableEq R] [DecidableEq Rid] in
theorem raft_stepDownCallback (s : LockCluster N C R Rid) (i : N)
    (n n' : RaftNode N (Proposal C R Rid)) : (s.stepDownCallback i n n').raft = s.raft := by
  unfold stepDownCallback
  split <;> rfl

omit [DecidableEq C] [DecidableEq R] [DecidableEq Rid] in
theorem replica_stepDownCallback (s : LockCluster N C R Rid) (i j : N)
    (n n' : RaftNode N (Proposal C R Rid)) :
    ((s.stepDownCallback i n n').managers j).replica = (s.managers j).replica := by
  unfold stepDownCallback
  split
  · show ((s.setManager i _).managers j).replica = _
    rcases eq_or_ne j i with rfl | hne
    · rw [managers_setManager_self]
    · rw [managers_setManager_of_ne s hne]
  · rfl

theorem raft_applyProposal (env : Env C ℚ) (i : N) (s : LockCluster N C R Rid)
    (p : Proposal C R Rid) : (applyProposal env i s p).raft = s.raft := by
  rcases applyProposal_cases env i s p with heq | ⟨requestId, status, -, -, -, heq⟩
  · rw [heq]
    rfl
  · rw [heq, raft_resolve]
    rfl

theorem replica_applyProposal (env : Env C ℚ) (i : N) (s : LockCluster N C R Rid)
    (p : Proposal C R Rid) (j : N) :
    ((applyProposal env i s p).managers j).replica =
      if j = i then ((s.managers i).replica.apply ⟨env.order, ⟨env.now, p.call⟩⟩ p).1
      else (s.managers j).replica := by
  have hextended : ((s.extended env i p).managers j).replica =
      if j = i then ((s.managers i).replica.apply ⟨env.order, ⟨env.now, p.call⟩⟩ p).1
      else (s.managers j).replica := by
    split
    · rename_i h
      subst h
      exact congrArg LockManager.replica (managers_setManager_self s j _)
    · rename_i h
      exact congrArg LockManager.replica (managers_setManager_of_ne s h _)
  rcases applyProposal_cases env i s p with heq | ⟨requestId, status, -, -, -, heq⟩
  · rw [heq, hextended]
  · rw [heq, replica_resolve, hextended]

/-- The callbacks of a step apply at most one command. -/
theorem callbacks_cases (env : Env C ℚ) (i : N) {n n' : RaftNode N (Proposal C R Rid)}
    (s : LockCluster N C R Rid) (h : RaftNode.Calls n n') :
    (n'.applied = n.applied ∧ s.callbacks env i n n' = s.stepDownCallback i n n') ∨
      ∃ e, n'.persistent.log[n'.volatile.lastApplied - 1]? = some e ∧
        n.volatile.lastApplied < n'.volatile.lastApplied ∧
        n'.applied = n.applied ++ [(n'.volatile.lastApplied, e.command)] ∧
        s.callbacks env i n n' = applyProposal env i (s.stepDownCallback i n n') e.command := by
  unfold callbacks
  cases h with
  | idle hcalls =>
    refine Or.inl ⟨hcalls, ?_⟩
    rw [hcalls, List.drop_length]
    rfl
  | @call e he hlt hcalls =>
    refine Or.inr ⟨e, he, hlt, hcalls, ?_⟩
    rw [hcalls, List.drop_left]
    rfl

theorem raft_callbacks (env : Env C ℚ) (i : N) (n n' : RaftNode N (Proposal C R Rid))
    (s : LockCluster N C R Rid) : (s.callbacks env i n n').raft = s.raft := by
  have happly : ∀ (ps : List (Proposal C R Rid)) (s : LockCluster N C R Rid),
      (ps.foldl (applyProposal env i) s).raft = s.raft := by
    intro ps
    induction ps with
    | nil => exact fun s => rfl
    | cons p ps ih => exact fun s => (ih _).trans (raft_applyProposal env i s p)
  exact (happly _ _).trans (raft_stepDownCallback s i n n')

/-- A step of the RaftNodes is one of the cluster or the `propose` of a call that starts. -/
theorem raft_step {s s' : LockCluster N C R Rid} {x : Env C ℚ × LockAction N C R Rid}
    (h : s.step cfg x = some s') : s'.raft = s.raft ∨
      ∃ a, s.raft.step cfg.toConfig a = some s'.raft ∧
        (x.2 = .raft a ∧ (∀ j p, a ≠ .propose j p) ∨
          ∃ j p, a = .propose j p ∧ p.call = s.calls.length) := by
  have hstarted : ∀ {s₁ : LockCluster N C R Rid} {env : Env C ℚ} {i : N} {op : LockOp} {c : C}
      {r : R}, Started cfg s env i op c r s₁ → s₁.raft = s.raft ∨
        ∃ a, s.raft.step cfg.toConfig a = some s₁.raft ∧
          ∃ j p, a = .propose j p ∧ p.call = s.calls.length := by
    intro s₁ env i op c r hs
    cases hs with
    | proposes hi hleader hraft =>
      rw [raft_callbacks]
      exact Or.inr ⟨_, hraft, _, _, rfl, rfl⟩
    | forwards => exact Or.inl rfl
    | denied => exact Or.inl rfl
  cases stepped h with
  | raft hdriven hcrash hactor hraft =>
    rw [raft_callbacks]
    refine Or.inr ⟨_, hraft, Or.inl ⟨rfl, fun j p ha => ?_⟩⟩
    rw [ha] at hdriven
    cases hdriven
  | restart hcrash hactor hraft =>
    refine Or.inr ⟨_, hraft, Or.inl ⟨rfl, fun j p ha => ?_⟩⟩
    rw [ha] at hcrash
    cases hcrash
  | acquireLock hs => exact (hstarted hs).imp_right fun ⟨a, ha, hp⟩ => ⟨a, ha, Or.inr hp⟩
  | releaseLock hs => exact (hstarted hs).imp_right fun ⟨a, ha, hp⟩ => ⟨a, ha, Or.inr hp⟩
  | deliver hk hmessage hs => exact (hstarted hs).imp_right fun ⟨a, ha, hp⟩ => ⟨a, ha, Or.inr hp⟩
  | @proposed env k task call hk hstage =>
    refine Or.inl ?_
    unfold proposed finish
    split
    · rfl
    · split
      · cases call.args.requestId <;> rfl
      · rfl
  | @wake env k call =>
    refine Or.inl ?_
    unfold finish
    cases call.args.requestId <;> rfl
  | @timeout env k call =>
    refine Or.inl ?_
    unfold timeout
    cases call.args.requestId <;> rfl
  | _ => exact Or.inl rfl

/-! ## The invariant -/

structure Tracked (cfg : LockConfig N C R Rid) (s : LockCluster N C R Rid) : Prop where
  inPlace : s.raft.InPlace
  saved : ∀ i, (s.raft.nodes i).Saved
  inOrder : ∀ i, (s.raft.nodes i).CallsInOrder
  entries : ∀ p e, s.raft.Carries p e → s.Names (p + 1) e.command
  applied : ∀ i, ∀ x ∈ (s.raft.nodes i).applied, s.Names x.1 x.2
  replicas : ∀ i order, (s.managers i).replica.mapStamp Stamp.call =
    Replica.replay order ((s.raft.nodes i).applied.map Prod.snd)
  bookkeeping : Bookkeeping cfg s

omit [DecidableEq N] in
theorem tracked_boot (cfg : LockConfig N C R Rid) (start : N → ℚ) :
    Tracked cfg (boot start : LockCluster N C R Rid) where
  inPlace p e he := by
    rcases he with ⟨i, hi⟩ | ⟨r, hr, -⟩
    · cases hi
    · cases hr
  saved i := rfl
  inOrder i := RaftNode.callsInOrder_boot _ _
  entries p e he := by
    rcases he with ⟨i, hi⟩ | ⟨r, hr, -⟩
    · cases hi
    · cases hr
  applied i x hx := by cases hx
  replicas i order := rfl
  bookkeeping :=
    { nodes := fun k call hk => by cases hk
      registered := fun i requestId k hk => by cases hk
      futures := fun k call status hk => by cases hk
      messages := fun k call hk => by cases hk
      indices := fun k call hk => by cases hk
      children := fun k call target j hk => by cases hk }

/-- The table of the node that acts follows what the node applies, the others stay. -/
theorem replicas_callbacks {s : LockCluster N C R Rid} (env : Env C ℚ) {i : N}
    {raft : Cluster N (Proposal C R Rid)}
    (hcalls : RaftNode.Calls (s.raft.nodes i) (raft.nodes i))
    (hother : ∀ j, j ≠ i → raft.nodes j = s.raft.nodes j)
    (h : ∀ j order, (s.managers j).replica.mapStamp Stamp.call =
      Replica.replay order ((s.raft.nodes j).applied.map Prod.snd)) (j : N) (order : SetOrder C) :
    (({ s with raft := raft }.callbacks env i (s.raft.nodes i) (raft.nodes i)).managers
      j).replica.mapStamp Stamp.call =
      Replica.replay order ((raft.nodes j).applied.map Prod.snd) := by
  rcases callbacks_cases env i { s with raft := raft } hcalls with
    ⟨heq, hstate⟩ | ⟨e, he, hlt, heq, hstate⟩
  · rw [hstate, replica_stepDownCallback]
    have happlied : (raft.nodes j).applied = (s.raft.nodes j).applied := by
      rcases eq_or_ne j i with rfl | hne
      · exact heq
      · rw [hother j hne]
    rw [happlied]
    exact h j order
  · rw [hstate, replica_applyProposal]
    split
    · rename_i hj
      subst hj
      rw [replica_stepDownCallback, heq, List.map_append]
      show _ = Replica.replay order (_ ++ [e.command])
      let local' : Env C Stamp := ⟨env.order, ⟨env.now, e.command.call⟩⟩
      let plain : Env C ℕ := ⟨order, e.command.call⟩
      have happly := Replica.apply_mapStamp (show plain.now = Stamp.call local'.now from rfl)
        (s.managers j).replica e.command
      rw [Replica.replay_concat, ← h j order]
      exact (congrArg Prod.fst happly).symm
    · rename_i hne
      rw [replica_stepDownCallback, hother j hne]
      exact h j order

/-- A step of the cluster and its callbacks. -/
theorem Tracked.callbacks {s : LockCluster N C R Rid} (h : Tracked cfg s) (env : Env C ℚ)
    {a : Action N (Proposal C R Rid)} {i : N} {raft : Cluster N (Proposal C R Rid)}
    (hcrash : a.crashFree = true) (hactor : s.raft.actor a = some i)
    (hraft : s.raft.step cfg.toConfig a = some raft)
    (hnew : ∀ j p, a = .propose j p →
      s.Names ((s.raft.nodes j).persistent.log.length + 1) p) :
    Tracked cfg ({ s with raft := raft }.callbacks env i (s.raft.nodes i) (raft.nodes i)) := by
  have hcalls := ((Cluster.traced_step h.inPlace hcrash hraft).nodes i).calls
  have hkeep : KeepsCalls s
      ({ s with raft := raft }.callbacks env i (s.raft.nodes i) (raft.nodes i)) :=
    KeepsCalls.of_outlines (outlines_callbacks env i _ _ _)
  have hother : ∀ j, j ≠ i → raft.nodes j = s.raft.nodes j := fun j hne =>
    Cluster.nodes_of_ne_actor hraft (by rw [hactor]; exact fun he => hne (Option.some.inj he).symm)
  -- what is in sight is what a call proposed
  have hentries : ∀ p e, raft.Carries p e → s.Names (p + 1) e.command := by
    intro p e he
    rcases Cluster.carries_step h.inPlace h.saved hraft he with hold | ⟨j, command, ha, rfl, rfl⟩
    · exact h.entries p e hold
    · exact hnew j command ha
  have hnames : ∀ e, (raft.nodes i).persistent.log[(raft.nodes i).volatile.lastApplied - 1]? =
      some e → 0 < (raft.nodes i).volatile.lastApplied →
      s.Names (raft.nodes i).volatile.lastApplied e.command := by
    intro e he hpos
    have := hentries _ e (Or.inl ⟨i, he⟩)
    rwa [Nat.sub_add_cancel hpos] at this
  have hidle : Bookkeeping cfg ({ s with raft := raft }.stepDownCallback i (s.raft.nodes i)
      (raft.nodes i)) := (h.bookkeeping.withRaft raft).stepDownCallback i _ _
  have hcases := callbacks_cases env i { s with raft := raft } hcalls
  exact
    { inPlace := by
        rw [raft_callbacks]
        exact h.inPlace.step h.saved hraft
      saved := by
        rw [raft_callbacks]
        exact Cluster.saved_step h.saved hraft
      inOrder := by
        rw [raft_callbacks]
        exact Cluster.callsInOrder_step h.inPlace h.inOrder hraft
      entries := by
        rw [raft_callbacks]
        exact fun p e he => (hentries p e he).mono hkeep
      applied := by
        rw [raft_callbacks]
        intro j x hx
        have hx : x ∈ (raft.nodes j).applied := hx
        refine Names.mono ?_ hkeep
        rcases eq_or_ne j i with rfl | hne
        · rcases hcases with ⟨heq, -⟩ | ⟨e, he, hlt, heq, -⟩
          · exact h.applied j x (heq ▸ hx)
          · rw [heq] at hx
            rcases List.mem_append.mp hx with hold | hnewCall
            · exact h.applied j x hold
            · obtain rfl := List.mem_singleton.mp hnewCall
              exact hnames e he (Nat.zero_lt_of_lt hlt)
        · rw [hother j hne] at hx
          exact h.applied j x hx
      replicas := by
        rw [raft_callbacks]
        exact replicas_callbacks env hcalls hother h.replicas
      bookkeeping := by
        rcases hcases with ⟨-, hstate⟩ | ⟨e, he, hlt, -, hstate⟩
        · rw [hstate]
          exact hidle
        · rw [hstate]
          have hkeep' : KeepsCalls s ({ s with raft := raft }.stepDownCallback i (s.raft.nodes i)
              (raft.nodes i)) := KeepsCalls.of_outlines (outlines_stepDownCallback i _ _ _)
          exact hidle.applyProposal env i ((hnames e he (Nat.zero_lt_of_lt hlt)).mono hkeep') }

/-- The node forgets its calls of `command_handler` with its table. -/
theorem Tracked.restart {s : LockCluster N C R Rid} (h : Tracked cfg s)
    {a : Action N (Proposal C R Rid)} {i : N} {raft : Cluster N (Proposal C R Rid)}
    (hcrash : a.crashFree = false) (hactor : s.raft.actor a = some i)
    (hraft : s.raft.step cfg.toConfig a = some raft) :
    Tracked cfg ({ s with raft := raft }.restart i) := by
  have hkeep : KeepsCalls s ({ s with raft := raft }.restart i) :=
    keepsCalls_restart { s with raft := raft } i
  have hother : ∀ j, j ≠ i → raft.nodes j = s.raft.nodes j := fun j hne =>
    Cluster.nodes_of_ne_actor hraft (by rw [hactor]; exact fun he => hne (Option.some.inj he).symm)
  have hempty : (raft.nodes i).applied = [] := by
    cases Cluster.stepped hraft with
    | crash =>
      obtain rfl := Option.some.inj hactor
      rw [Cluster.nodes_restart_self]
      rfl
    | crashSaving =>
      obtain rfl := Option.some.inj hactor
      rw [Cluster.nodes_restart_self]
      rfl
    | _ => cases hcrash
  have hself : ({ s with raft := raft }.restart i).managers i = LockManager.init :=
    managers_setManager_self _ i _
  have hmanager : ∀ j, j ≠ i → ({ s with raft := raft }.restart i).managers j = s.managers j :=
    fun j hne => managers_setManager_of_ne _ hne _
  exact
    { inPlace := h.inPlace.step h.saved hraft
      saved := Cluster.saved_step h.saved hraft
      inOrder := Cluster.callsInOrder_step h.inPlace h.inOrder hraft
      entries := fun p e he => by
        rcases Cluster.carries_step h.inPlace h.saved hraft he with hold | ⟨j, c, rfl, -⟩
        · exact (h.entries p e hold).mono hkeep
        · cases hcrash
      applied := fun j x hx => by
        have hmem : x ∈ (raft.nodes j).applied := hx
        rcases eq_or_ne j i with rfl | hne
        · rw [hempty] at hmem
          cases hmem
        · rw [hother j hne] at hmem
          exact (h.applied j x hmem).mono hkeep
      replicas := fun j order => by
        show _ = Replica.replay order ((raft.nodes j).applied.map Prod.snd)
        rcases eq_or_ne j i with rfl | hne
        · rw [hself, hempty]
          rfl
        · rw [hmanager j hne, hother j hne]
          exact h.replicas j order
      bookkeeping := (h.bookkeeping.withRaft raft).restart i }

omit [DecidableEq N] in
/-- The parts of a step that do not touch the RaftNodes and their tables. -/
theorem Tracked.same {s s' : LockCluster N C R Rid} (h : Tracked cfg s) (hraft : s'.raft = s.raft)
    (hreplica : ∀ i, (s'.managers i).replica = (s.managers i).replica) (hkeep : KeepsCalls s s')
    (hb : Bookkeeping cfg s') : Tracked cfg s' where
  inPlace := hraft ▸ h.inPlace
  saved := hraft ▸ h.saved
  inOrder := hraft ▸ h.inOrder
  entries p e he := (h.entries p e (hraft ▸ he)).mono hkeep
  applied i x hx := (h.applied i x (hraft ▸ hx)).mono hkeep
  replicas i order := by
    rw [hreplica, hraft]
    exact h.replicas i order
  bookkeeping := hb

/-! ## Calls that start -/

omit [DecidableEq C] [DecidableEq R] in
theorem raft_proposing (s : LockCluster N C R Rid) (env : Env C ℚ) (args : CallArgs N C R Rid) :
    (s.proposing env args).raft = s.raft := by
  unfold proposing
  cases args.requestId <;> rfl

omit [DecidableEq C] [DecidableEq R] in
theorem replica_proposing (s : LockCluster N C R Rid) (env : Env C ℚ) (args : CallArgs N C R Rid)
    (j : N) : ((s.proposing env args).managers j).replica = (s.managers j).replica := by
  unfold proposing
  cases args.requestId with
  | none => rfl
  | some requestId =>
    show ((s.setManager args.node _).managers j).replica = _
    rcases eq_or_ne j args.node with rfl | hne
    · rw [managers_setManager_self]
    · rw [managers_setManager_of_ne s hne]

omit [DecidableEq C] [DecidableEq R] in
/-- Only the new call is registered. -/
theorem pending_proposing {s : LockCluster N C R Rid} {env : Env C ℚ} {args : CallArgs N C R Rid}
    {j : N} {requestId : Rid} {k : ℕ}
    (h : ((s.proposing env args).managers j).pendingRequests.get? requestId = some k) :
    (s.managers j).pendingRequests.get? requestId = some k ∨
      k = s.calls.length ∧ args.node = j ∧ args.requestId = some requestId := by
  unfold proposing at h
  cases hid : args.requestId with
  | none =>
    rw [hid] at h
    exact Or.inl h
  | some own =>
    rw [hid] at h
    have h : ((s.setManager args.node _).managers j).pendingRequests.get? requestId = some k := h
    rcases eq_or_ne j args.node with rfl | hne
    · rw [managers_setManager_self, Dict.get?_set] at h
      split at h
      · rename_i heq
        exact Or.inr ⟨(Option.some.inj h).symm, rfl, by rw [heq]⟩
      · exact Or.inl h
    · rw [managers_setManager_of_ne s hne] at h
      exact Or.inl h

theorem Tracked.started {s s' : LockCluster N C R Rid} (h : Tracked cfg s) {env : Env C ℚ} {i : N}
    {op : LockOp} {c : C} {r : R} (hs : Started cfg s env i op c r s') : Tracked cfg s' := by
  cases hs with
  | @proposes raft hi hleader hraft =>
    let args := s.proposalArgs cfg env i op c r
    have hcalls := calls_proposing s env args
    have hproposing : Tracked cfg (s.proposing env args) := by
      refine h.same (raft_proposing s env args) (replica_proposing s env args) ?_ ?_
      · intro k call hk
        have hlt := (List.getElem?_eq_some_iff.mp hk).1
        exact ⟨call, by rw [hcalls, List.getElem?_append_left hlt, hk], Call.Kept.refl call⟩
      · exact h.bookkeeping.add hcalls hi rfl (fun hm => by cases hm) (fun _ => rfl)
          (fun _ _ hm => by cases hm) (replica_proposing s env args)
          fun j requestId k hreg => pending_proposing hreg
    have hstep : (s.proposing env args).raft.step cfg.toConfig
        (.propose i ⟨s.calls.length, args.command⟩) = some raft := by
      rw [raft_proposing]
      exact hraft
    have hafter := hproposing.callbacks env rfl rfl hstep (by
        intro j p ha
        obtain ⟨rfl, rfl⟩ := Action.propose.inj ha
        rw [raft_proposing]
        refine ⟨⟨args, .proposing s.raft.tasks.length, none, none⟩, ?_, rfl, rfl⟩
        show (s.proposing env args).calls[s.calls.length]? = _
        rw [hcalls, List.getElem?_concat_length])
    rwa [raft_proposing] at hafter
  | forwards hi hleader =>
    refine h.same rfl (fun _ => rfl) (keepsCalls_addCall s _) ?_
    exact h.bookkeeping.add rfl hi rfl (fun _ => rfl)
      (fun hp => by rcases hp with hw | ⟨task, hw⟩ <;> cases hw) (fun _ _ hm => by cases hm)
      (fun _ => rfl) fun _ _ _ hreg => Or.inl hreg
  | denied hi =>
    refine h.same rfl (fun _ => rfl) (keepsCalls_addCall s _) ?_
    exact h.bookkeeping.add rfl hi rfl (fun _ => rfl)
      (fun hp => by rcases hp with hw | ⟨task, hw⟩ <;> cases hw) (fun _ _ hm => by cases hm)
      (fun _ => rfl) fun _ _ _ hreg => Or.inl hreg

/-! ## Calls that go on -/

omit [DecidableEq C] [DecidableEq R] [DecidableEq Rid] in
theorem setManager_self (s : LockCluster N C R Rid) (i : N) :
    s.setManager i (s.managers i) = s := by
  unfold setManager
  rw [Function.update_eq_self]

/-- A call changes, and its node sheds futures. -/
theorem Tracked.set {s : LockCluster N C R Rid} (h : Tracked cfg s) {i : N}
    {m : LockManager C R Rid} (hm : LockManager.Sheds (s.managers i) m)
    (hreplica : m.replica = (s.managers i).replica) {k : ℕ} {call call' : Call N C R Rid}
    (hk : s.calls[k]? = some call) (hkept : Call.Kept call call')
    (hcont : Continues ((s.setManager i m).setCall k call') k call call') :
    Tracked cfg ((s.setManager i m).setCall k call') := by
  refine h.same rfl (fun j => ?_) (keepsCalls_setCall (s := s) hk hkept)
    (h.bookkeeping.set hm hk hkept hcont)
  show ((s.setManager i m).managers j).replica = _
  rcases eq_or_ne j i with rfl | hne
  · rw [managers_setManager_self, hreplica]
  · rw [managers_setManager_of_ne s hne]

omit [DecidableEq C] [DecidableEq R] in
/-- `finish` and `timeout` shed at most the request id of their call. -/
theorem finish_eq (s : LockCluster N C R Rid) (k : ℕ) (call : Call N C R Rid)
    (result : LockStatus) : ∃ m, LockManager.Sheds (s.managers call.args.node) m ∧
      m.replica = (s.managers call.args.node).replica ∧
      s.finish k call result =
        (s.setManager call.args.node m).setStage k call (.returned result) := by
  unfold finish
  cases call.args.requestId with
  | none =>
    refine ⟨s.managers call.args.node, .refl _, rfl, ?_⟩
    rw [setManager_self]
  | some requestId =>
    let m := s.managers call.args.node
    exact ⟨{ m with timers := m.timers.erase requestId },
      ⟨fun _ hx => hx, fun _ _ hreg => hreg⟩, rfl, rfl⟩

omit [DecidableEq C] [DecidableEq R] in
theorem timeout_eq (s : LockCluster N C R Rid) (k : ℕ) (call : Call N C R Rid) :
    ∃ m, LockManager.Sheds (s.managers call.args.node) m ∧
      m.replica = (s.managers call.args.node).replica ∧
      s.timeout k call = (s.setManager call.args.node m).setStage k call (.returned .timeout) := by
  unfold timeout
  cases call.args.requestId with
  | none =>
    refine ⟨s.managers call.args.node, .refl _, rfl, ?_⟩
    rw [setManager_self]
  | some requestId =>
    let m := s.managers call.args.node
    refine ⟨{ m with pendingRequests := m.pendingRequests.erase requestId },
      ⟨fun _ hx => hx, fun other k' hreg => ?_⟩, rfl, rfl⟩
    rw [Dict.get?_erase] at hreg
    split at hreg
    · cases hreg
    · exact hreg

omit [DecidableEq N] [DecidableEq C] [DecidableEq R] [DecidableEq Rid] in
/-- A call that leaves `propose` or `wait_for` for a stage that is neither. -/
theorem Continues.ends {s' : LockCluster N C R Rid} {k : ℕ} {call : Call N C R Rid}
    {stage : CallStage} (hstage : ¬ ({ call with stage := stage } : Call N C R Rid).Pending) :
    Continues s' k call { call with stage := stage } where
  args := rfl
  pending hp := absurd hp hstage
  future hp := absurd hp hstage
  message := id
  child _ _ hm := Or.inl hm

theorem Tracked.setStage {s : LockCluster N C R Rid} (h : Tracked cfg s) {k : ℕ}
    {call : Call N C R Rid} {stage : CallStage} (hk : s.calls[k]? = some call)
    (hkept : Call.Kept call { call with stage := stage })
    (hcont : Continues (s.setStage k call stage) k call { call with stage := stage }) :
    Tracked cfg (s.setStage k call stage) := by
  have hset := h.set (.refl (s.managers call.args.node)) rfl hk hkept
  rw [setManager_self] at hset
  exact hset hcont

theorem Tracked.returns {s : LockCluster N C R Rid} (h : Tracked cfg s) {k : ℕ}
    {call : Call N C R Rid} {status : LockStatus} {m : LockManager C R Rid}
    (hm : LockManager.Sheds (s.managers call.args.node) m)
    (hreplica : m.replica = (s.managers call.args.node).replica)
    (hk : s.calls[k]? = some call) (hnot : ∀ status, call.stage ≠ .returned status) :
    Tracked cfg ((s.setManager call.args.node m).setStage k call (.returned status)) :=
  h.set hm hreplica hk (.returns hnot) (.ends (Call.not_pending_returned call status))

theorem Tracked.proposed {s : LockCluster N C R Rid} (h : Tracked cfg s) {k task : ℕ}
    {call : Call N C R Rid} (hk : s.calls[k]? = some call) (hstage : call.stage = .proposing task) :
    Tracked cfg (s.proposed k call) := by
  have hp : call.Pending := Or.inr ⟨task, hstage⟩
  unfold LockCluster.proposed
  split
  · exact h.setStage hk (.returns hp.not_returned) (.ends (Call.not_pending_returned call _))
  · split
    · obtain ⟨m, hm, hreplica, heq⟩ := finish_eq s k call _
      rw [heq]
      exact h.returns hm hreplica hk hp.not_returned
    · exact h.setStage hk (.stage hp.not_returned (fun _ => hp) fun h => by cases h)
        ⟨rfl, fun _ => hp, fun _ _ hf => Or.inl hf, id, fun _ _ hm => Or.inl hm⟩

theorem Tracked.setDelivery {s : LockCluster N C R Rid} (h : Tracked cfg s) {k : ℕ}
    {call : Call N C R Rid} {target : N} {delivery : Delivery} (hk : s.calls[k]? = some call)
    (hmessage : call.message = some (target, .inFlight))
    (hchild : ∀ j, delivery = .handled j →
      ∃ child, s.calls[j]? = some child ∧ child.args.op = call.args.op) :
    Tracked cfg (s.setDelivery k delivery) := by
  have hkept := Call.kept_setDelivery delivery hmessage
  rw [setDelivery_eq hk]
  have hset := h.set (.refl (s.managers call.args.node)) rfl hk hkept
  rw [setManager_self] at hset
  refine hset ⟨rfl, id, fun _ _ hf => Or.inl hf, fun _ => by rw [hmessage]; rfl, ?_⟩
  intro other j hm
  unfold Call.setDelivery at hm
  dsimp only at hm
  rw [hmessage] at hm
  obtain ⟨-, heq⟩ := Prod.mk.inj (Option.some.inj hm)
  obtain ⟨child, hj, hop⟩ := hchild j heq
  obtain ⟨child', hj', hkept'⟩ := keepsCalls_setCall hk hkept j child hj
  exact Or.inr ⟨child', hj', by rw [hkept'.args]; exact hop⟩

/-! ## Steps and runs -/

theorem Tracked.step {s s' : LockCluster N C R Rid} (h : Tracked cfg s)
    {x : Env C ℚ × LockAction N C R Rid} (hstep : s.step cfg x = some s') : Tracked cfg s' := by
  cases stepped hstep with
  | raft hdriven hcrash hactor hraft =>
    refine h.callbacks _ hcrash hactor hraft fun j p ha => ?_
    subst ha
    cases hdriven
  | restart hcrash hactor hraft => exact h.restart hcrash hactor hraft
  | acquireLock hs => exact h.started hs
  | releaseLock hs => exact h.started hs
  | proposed hk hstage => exact h.proposed hk hstage
  | @proposeRaises env k task call hk hstage =>
    have hp : call.Pending := Or.inr ⟨task, hstage⟩
    refine h.setStage hk (.stage hp.not_returned (fun _ => hp) fun h => by cases h) (.ends ?_)
    rintro (hw | ⟨task, hw⟩) <;> cases hw
  | @wake env k call result hk hstage =>
    obtain ⟨m, hm, hreplica, heq⟩ := finish_eq s k call result
    rw [heq]
    exact h.returns hm hreplica hk (Call.Pending.not_returned (Or.inl hstage))
  | @timeout env k call hk hstage =>
    obtain ⟨m, hm, hreplica, heq⟩ := timeout_eq s k call
    rw [heq]
    exact h.returns hm hreplica hk (Call.Pending.not_returned (Or.inl hstage))
  | @deliver env k call target s' hk hmessage hs =>
    obtain ⟨call', hk', heq⟩ := outline_started hs hk
    refine (h.started hs).setDelivery hk' ((congrArg (·.2.2) heq).trans hmessage) fun j hj => ?_
    obtain rfl := Delivery.handled.inj hj
    obtain ⟨child, hchild, hop⟩ := new_started hs
    exact ⟨child, hchild, hop.trans (congrArg (·.1.op) heq).symm⟩
  | lose hk hmessage => exact h.setDelivery hk hmessage fun j hj => by cases hj
  | response hk hstage =>
    exact h.setStage hk (.returns (Call.not_returned_of_forwarding hstage))
      (.ends (Call.not_pending_returned _ _))
  | noResponse hk hstage =>
    exact h.setStage hk (.returns (Call.not_returned_of_forwarding hstage))
      (.ends (Call.not_pending_returned _ _))

/-- Whatever the nodes do, their tables are replays and their futures belong to their calls. -/
theorem Tracked.run {s s' : LockCluster N C R Rid} (h : Tracked cfg s)
    {xs : List (Env C ℚ × LockAction N C R Rid)} (hrun : s.run cfg xs = some s') :
    Tracked cfg s' :=
  Transition.run_preserves (P := fun _ _ => True) (fun _ _ _ ht _ hstep => ht.step hstep) h
    (Transition.eachStep_of_forall s fun _ _ _ => trivial) hrun

end Pynchronize.LockCluster
