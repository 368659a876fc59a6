import Pynchronize.Lock.Replies
import Pynchronize.Raft.Commitment

/-!
# Success and commitment

`release_lock` answers RELEASED when its `propose` returns, which is after one
round of sends whatever came back; `acquire_lock` waits for a future, which a
call with the same request id may resolve. In the runs of `CommitsFirst` both
answer only what their node has committed and applied.
-/

namespace Pynchronize.LockCluster

open Lib
open RaftNode (CommitOk Advances Committed)

variable {N C R Rid : Type*} [DecidableEq N] [DecidableEq C] [DecidableEq R] [DecidableEq Rid]
  {cfg : LockConfig N C R Rid}

/-! ## When success means commitment -/

/-- `_try_commit` finds the entry of call `k` replicated. -/
def Replicated (cfg : LockConfig N C R Rid) (n : RaftNode N (Proposal C R Rid)) (k : ℕ)
    (call : Call N C R Rid) : Prop :=
  ∀ index ∈ call.args.index, (n.getLogEntry index).map LogEntry.command =
    some ⟨k, call.args.command⟩ ∧ n.commits cfg.toConfig index = true

/-- A round of sends that ends has replicated the releases that wait for it. -/
def ReplicatesReleases (cfg : LockConfig N C R Rid) (s : LockCluster N C R Rid)
    (a : Action N (Proposal C R Rid)) : Prop :=
  ∀ round ∈ s.raft.roundEnds a, ∀ call ∈ s.calls.zipIdx, call.1.stage = .proposing round.1 →
    call.1.args.op = .release → Replicated cfg round.2 call.2 call.1

/-- A future that is resolved with ACQUIRED belongs to a request id of one call. -/
def Unambiguous (s : LockCluster N C R Rid) (k : ℕ) : Prop :=
  ∀ call ∈ s.calls[k]?, call.future = some .acquired → ¬ s.Collides k

/-- No committed entry is overwritten, the round of sends of a release replicates its entry, and
    no two calls share the request id of a future that answers ACQUIRED. -/
def CommitsFirst (cfg : LockConfig N C R Rid) (s : LockCluster N C R Rid)
    (x : Env C ℚ × LockAction N C R Rid) : Prop :=
  match x.2 with
  | .raft a => s.raft.KeepsCommitted a ∧ s.ReplicatesReleases cfg a
  | .proposed k => s.Unambiguous k
  | .wake k => s.Unambiguous k
  | _ => True

/-- Whether another call has the request id of call `k`. -/
def sharesRequestId (s : LockCluster N C R Rid) (k : ℕ) : Bool :=
  s.calls.zipIdx.any fun other => other.2 ≠ k && other.1.args.requestId.isSome &&
    ((s.calls[k]?).bind fun call => call.args.requestId) = other.1.args.requestId

omit [DecidableEq N] [DecidableEq C] [DecidableEq R] in
theorem sharesRequestId_iff (s : LockCluster N C R Rid) (k : ℕ) :
    s.sharesRequestId k = true ↔ s.Collides k := by
  constructor
  · intro h
    obtain ⟨⟨other, k'⟩, hmem, h⟩ := List.any_eq_true.mp h
    obtain ⟨hne, hid⟩ := Bool.and_eq_true_iff.mp h
    obtain ⟨hne, hsome⟩ := Bool.and_eq_true_iff.mp hne
    obtain ⟨requestId, hother⟩ := Option.isSome_iff_exists.mp hsome
    have hid := (of_decide_eq_true hid).trans hother
    obtain ⟨call, hk, hcall⟩ := Option.bind_eq_some_iff.mp hid
    exact ⟨k', call, other, requestId, of_decide_eq_true hne, hk,
      List.mk_mem_zipIdx_iff_getElem?.mp hmem, hcall, hother⟩
  · rintro ⟨k', call, other, requestId, hne, hk, hk', hid, hid'⟩
    refine List.any_eq_true.mpr ⟨(other, k'), List.mk_mem_zipIdx_iff_getElem?.mpr hk', ?_⟩
    simp [hne, hk, hid, hid']

instance (s : LockCluster N C R Rid) (k : ℕ) : Decidable (s.Collides k) :=
  decidable_of_iff _ (s.sharesRequestId_iff k)

instance (cfg : LockConfig N C R Rid) (n : RaftNode N (Proposal C R Rid)) (k : ℕ)
    (call : Call N C R Rid) : Decidable (Replicated cfg n k call) :=
  inferInstanceAs (Decidable (∀ index ∈ call.args.index, _ ∧ _))

instance (cfg : LockConfig N C R Rid) (s : LockCluster N C R Rid)
    (a : Action N (Proposal C R Rid)) : Decidable (s.ReplicatesReleases cfg a) :=
  inferInstanceAs (Decidable (∀ round ∈ s.raft.roundEnds a, ∀ call ∈ s.calls.zipIdx, _ → _ → _))

instance (s : LockCluster N C R Rid) (k : ℕ) : Decidable (s.Unambiguous k) :=
  inferInstanceAs (Decidable (∀ call ∈ s.calls[k]?, _ → ¬ _))

instance (cfg : LockConfig N C R Rid) (s : LockCluster N C R Rid)
    (x : Env C ℚ × LockAction N C R Rid) : Decidable (s.CommitsFirst cfg x) := by
  unfold CommitsFirst
  split <;> infer_instance

/-! ## The coroutine of a release -/

/-- `t` runs the `propose` of the call, and has committed its entry when it leaves the loop. -/
structure Proposes (s : LockCluster N C R Rid) (k : ℕ) (call : Call N C R Rid)
    (t : Task N (Proposal C R Rid)) : Prop where
  node : t.node = call.args.node
  kind : t.kind = .propose
  committed : Cluster.unfinished t.pc = false → ∀ index, call.args.index = some index →
    (s.raft.nodes t.node).Committed index ⟨k, call.args.command⟩
  applied : t.pc = .returned → ∀ index, call.args.index = some index →
    index ≤ (s.raft.nodes t.node).volatile.lastApplied

structure CommitTracked (cfg : LockConfig N C R Rid) (s : LockCluster N C R Rid) : Prop where
  tracked : Tracked cfg s
  ok : ∀ i, CommitOk (s.raft.nodes i)
  leaders : ∀ i, (s.raft.nodes i).state = .leader → (s.raft.nodes i).leaderState.isSome = true
  releases : ∀ (k task : ℕ) call, s.calls[k]? = some call → call.stage = .proposing task →
    call.args.op = .release → ∃ t, s.raft.tasks[task]? = some t ∧ s.Proposes k call t

/-- Call `k` was there, with the arguments and the stage of `call'`. -/
def Stood (s : LockCluster N C R Rid) (k : ℕ) (call' : Call N C R Rid) : Prop :=
  ∃ call, s.calls[k]? = some call ∧ call'.args = call.args ∧ call'.stage = call.stage

omit [DecidableEq N] [DecidableEq C] [DecidableEq R] [DecidableEq Rid] in
theorem stood_of_outlines {s s' : LockCluster N C R Rid} (h : s'.outlines = s.outlines) {k : ℕ}
    {call' : Call N C R Rid} (hk : s'.calls[k]? = some call') : s.Stood k call' := by
  obtain ⟨call, hcall, heq⟩ := exists_outline h hk
  exact ⟨call, hcall, (congrArg (·.1) heq).symm, (congrArg (·.2.1) heq).symm⟩

omit [DecidableEq N] [DecidableEq C] [DecidableEq R] [DecidableEq Rid] in
theorem stood_setDelivery {s : LockCluster N C R Rid} {j k : ℕ} {delivery : Delivery}
    {call' : Call N C R Rid} (hk : (s.setDelivery j delivery).calls[k]? = some call') :
    s.Stood k call' := by
  have hk : (s.calls.modify j (Call.setDelivery delivery))[k]? = some call' := hk
  rw [List.getElem?_modify] at hk
  obtain ⟨call, hcall, rfl⟩ := Option.map_eq_some_iff.mp hk
  refine ⟨call, hcall, ?_⟩
  split
  · exact ⟨rfl, rfl⟩
  · exact ⟨rfl, rfl⟩

/-- A call that starts to propose in a step. -/
structure StartsProposing (cfg : LockConfig N C R Rid) (s s' : LockCluster N C R Rid) (k task : ℕ)
    (call' : Call N C R Rid) : Prop where
  task_eq : task = s.raft.tasks.length
  index : call'.args.index = some ((s.raft.nodes call'.args.node).persistent.log.length + 1)
  nodes : call'.args.node ∈ cfg.nodes
  leader : (s.raft.nodes call'.args.node).state = .leader
  step : s.raft.step cfg.toConfig (.propose call'.args.node ⟨k, call'.args.command⟩) = some s'.raft

theorem proposing_started {s s' : LockCluster N C R Rid} {env : Env C ℚ} {i : N} {op : LockOp}
    {c : C} {r : R} (h : Started cfg s env i op c r s') {k task : ℕ} {call' : Call N C R Rid}
    (hk : s'.calls[k]? = some call') (hstage : call'.stage = .proposing task) :
    s.Stood k call' ∨
      StartsProposing cfg s s' k task call' := by
  cases h with
  | @proposes raft hi hleader hraft =>
    obtain ⟨call, hcall, heq⟩ := exists_outline
      (outlines_callbacks env i _ _ { s.proposing env _ with raft := raft }) hk
    have hcall : (s.proposing env _).calls[k]? = some call := hcall
    rw [calls_proposing] at hcall
    rcases getElem?_concat_cases hcall with hold | ⟨rfl, rfl⟩
    · exact Or.inl ⟨call, hold, (congrArg (·.1) heq).symm, (congrArg (·.2.1) heq).symm⟩
    · have hargs : call'.args = s.proposalArgs cfg env i op c r := (congrArg (·.1) heq).symm
      have htask : CallStage.proposing s.raft.tasks.length = .proposing task :=
        (congrArg (·.2.1) heq).trans hstage
      refine Or.inr ⟨(CallStage.proposing.inj htask).symm, ?_, ?_, ?_, ?_⟩
      all_goals rw [hargs]
      · rfl
      · exact hi
      · exact hleader
      · rw [raft_callbacks]
        exact hraft
  | forwards =>
    rcases getElem?_concat_cases hk with hold | ⟨-, rfl⟩
    · exact Or.inl ⟨call', hold, rfl, rfl⟩
    · cases hstage
  | denied =>
    rcases getElem?_concat_cases hk with hold | ⟨-, rfl⟩
    · exact Or.inl ⟨call', hold, rfl, rfl⟩
    · cases hstage

omit [DecidableEq N] [DecidableEq C] [DecidableEq R] [DecidableEq Rid] in
theorem proposing_setStage {s s₁ : LockCluster N C R Rid} {k j task : ℕ} {call : Call N C R Rid}
    {stage : CallStage} (hcalls : s₁.calls = s.calls)
    (hnot : ∀ task, stage ≠ .proposing task) {call' : Call N C R Rid}
    (hj : (s₁.setStage k call stage).calls[j]? = some call')
    (hstage : call'.stage = .proposing task) :
    s.Stood j call' := by
  rcases getElem?_set_cases hj with ⟨-, rfl⟩ | ⟨-, hold⟩
  · exact absurd hstage (hnot task)
  · exact ⟨call', hcalls ▸ hold, rfl, rfl⟩

omit [DecidableEq C] [DecidableEq R] in
theorem calls_finish (s : LockCluster N C R Rid) (k : ℕ) (call : Call N C R Rid)
    (result : LockStatus) : ∃ s₁ : LockCluster N C R Rid, s₁.calls = s.calls ∧
      s.finish k call result = s₁.setStage k call (.returned result) := by
  obtain ⟨m, -, -, heq⟩ := finish_eq s k call result
  exact ⟨s.setManager call.args.node m, rfl, heq⟩

/-- A call in `propose` was there before the step, or starts in it. -/
theorem proposing_step {s s' : LockCluster N C R Rid} {x : Env C ℚ × LockAction N C R Rid}
    (h : s.step cfg x = some s') {k task : ℕ} {call' : Call N C R Rid}
    (hk : s'.calls[k]? = some call') (hstage : call'.stage = .proposing task) :
    s.Stood k call' ∨
      StartsProposing cfg s s' k task call' := by
  cases stepped h with
  | @raft env a i raft =>
    have hstood : ({ s with raft := raft } : LockCluster N C R Rid).Stood k call' :=
      stood_of_outlines (outlines_callbacks env i _ _ _) hk
    exact Or.inl hstood
  | restart =>
    obtain ⟨call, hcall, ⟨-, rfl⟩ | ⟨-, rfl⟩⟩ := exists_restart hk
    · exact absurd (Or.inr ⟨task, hstage⟩) (Call.not_pending_crash call)
    · exact Or.inl ⟨call', hcall, rfl, rfl⟩
  | acquireLock hs => exact proposing_started hs hk hstage
  | releaseLock hs => exact proposing_started hs hk hstage
  | @proposed env j task call =>
    refine Or.inl ?_
    unfold proposed at hk
    split at hk
    · exact proposing_setStage rfl (fun _ h => by cases h) hk hstage
    · split at hk
      · obtain ⟨s₁, hcalls, heq⟩ := calls_finish s j call _
        rw [heq] at hk
        exact proposing_setStage hcalls (fun _ h => by cases h) hk hstage
      · exact proposing_setStage rfl (fun _ h => by cases h) hk hstage
  | proposeRaises =>
    exact Or.inl (proposing_setStage rfl (fun _ h => by cases h) hk hstage)
  | @wake env j call result =>
    obtain ⟨s₁, hcalls, heq⟩ := calls_finish s j call result
    rw [heq] at hk
    exact Or.inl (proposing_setStage hcalls (fun _ h => by cases h) hk hstage)
  | @timeout env j call =>
    obtain ⟨m, -, -, heq⟩ := timeout_eq s j call
    rw [heq] at hk
    have hcalls : (s.setManager call.args.node m).calls = s.calls := rfl
    exact Or.inl (proposing_setStage hcalls (fun _ h => by cases h) hk hstage)
  | deliver _ _ hs =>
    obtain ⟨called, hcalled, hargs, hsame⟩ := stood_setDelivery hk
    rcases proposing_started hs hcalled (hsame.symm.trans hstage) with
      ⟨call, hcall, heq⟩ | hstart
    · exact Or.inl ⟨call, hcall, hargs.trans heq.1, hsame.trans heq.2⟩
    · refine Or.inr ⟨hstart.task_eq, ?_, ?_, ?_, ?_⟩
      all_goals rw [hargs]
      · exact hstart.index
      · exact hstart.nodes
      · exact hstart.leader
      · exact hstart.step
  | lose => exact Or.inl (stood_setDelivery hk)
  | response => exact Or.inl (proposing_setStage rfl (fun _ h => by cases h) hk hstage)
  | noResponse => exact Or.inl (proposing_setStage rfl (fun _ h => by cases h) hk hstage)

/-! ## The invariant -/

omit [DecidableEq C] [DecidableEq R] [DecidableEq Rid] in
theorem Proposes.step {s s' : LockCluster N C R Rid}
    {a : Action N (Proposal C R Rid)} {k task : ℕ} {call call' : Call N C R Rid}
    {t : Task N (Proposal C R Rid)} (h : s.Proposes k call t)
    (hok : CommitOk (s.raft.nodes t.node))
    (hadv : Advances (s.raft.nodes t.node) (s'.raft.nodes t.node))
    (hargs : call'.args = call.args) (ht : s.raft.tasks[task]? = some t)
    (hround : ∀ n, s.raft.roundEnds a = some (task, n) → Replicated cfg n k call)
    {t' : Task N (Proposal C R Rid)}
    (hstep : Cluster.ProposeStep cfg.toConfig s.raft a s'.raft task t t') :
    s'.Proposes k call' t' := by
  cases hstep with
  | stays =>
    refine ⟨hargs ▸ h.node, h.kind, fun hpc index hindex => ?_, fun hpc index hindex => ?_⟩
    · rw [hargs] at hindex ⊢
      exact (h.committed hpc index hindex).advances hadv
    · rw [hargs] at hindex
      exact (h.applied hpc index hindex).trans hadv.lastApplied
  | goesOn hpc =>
    refine ⟨hargs ▸ h.node, h.kind, fun hnot => ?_, fun hnot => ?_⟩
    · exact absurd (hpc.symm.trans hnot) (by decide)
    · subst hnot
      cases hpc
  | @commits n hends hnode =>
    have hsame := Cluster.sameProgress_roundEnds hends ht
    have hokn := (hok.same hsame).ok
    refine ⟨hargs ▸ h.node, h.kind, fun _ index hindex => ?_, fun hpc index hindex => ?_⟩
    all_goals rw [hargs] at hindex
    all_goals obtain ⟨hentry, hcommits⟩ := hround n hends index hindex
    all_goals obtain ⟨hle, happlied⟩ := hokn.tryCommit_commits hcommits
    · rw [hargs]
      show (s'.raft.nodes t.node).Committed _ _
      rw [hnode]
      refine ⟨hle, ?_⟩
      unfold RaftNode.getLogEntry at hentry ⊢
      rwa [Cluster.log_tryCommit]
    · show index ≤ (s'.raft.nodes t.node).volatile.lastApplied
      rw [hnode]
      refine happlied ?_
      unfold Cluster.afterApply at hpc
      dsimp only at hpc
      split at hpc
      · cases hpc
      · rename_i hfalse
        exact Bool.eq_false_iff.mpr hfalse
  | applies happly hnode =>
    have hcommitted : ∀ index, call.args.index = some index →
        (s'.raft.nodes t.node).Committed index ⟨k, call.args.command⟩ := fun index hindex =>
      (h.committed (by rw [happly]; rfl) index hindex).advances hadv
    refine ⟨hargs ▸ h.node, h.kind, fun _ index hindex => ?_, fun hpc index hindex => ?_⟩
    · rw [hargs] at hindex ⊢
      exact hcommitted index hindex
    · rw [hargs] at hindex
      show index ≤ (s'.raft.nodes t.node).volatile.lastApplied
      unfold Cluster.afterApply at hpc
      dsimp only at hpc
      split at hpc
      · cases hpc
      · rename_i hfalse
        have hall := RaftNode.applyCommitted_false (Bool.eq_false_iff.mpr hfalse)
        have hle := (h.committed (by rw [happly]; rfl) index hindex).le
        rw [hnode]
        exact hle.trans hall

omit [DecidableEq C] [DecidableEq R] [DecidableEq Rid] in
/-- The coroutine of a release that starts. -/
theorem Proposes.start {s s' : LockCluster N C R Rid} {k task : ℕ} {call' : Call N C R Rid}
    (hok : ∀ i, CommitOk (s.raft.nodes i))
    (hleaders : ∀ i, (s.raft.nodes i).state = .leader →
      (s.raft.nodes i).leaderState.isSome = true)
    (h : StartsProposing cfg s s' k task call') :
    ∃ t, s'.raft.tasks[task]? = some t ∧ s'.Proposes k call' t := by
  obtain ⟨t, ht, hnode, hkind, hcase⟩ :=
    Cluster.tasks_propose h.nodes h.leader (hleaders _ h.leader) h.step
  rw [← h.task_eq] at ht
  refine ⟨t, ht, hnode, hkind, fun hpc index hindex => ?_, fun hpc index hindex => ?_⟩
  all_goals rw [h.index] at hindex
  all_goals obtain rfl := Option.some.inj hindex
  all_goals have happended := (hok call'.args.node).appendCommand ⟨k, call'.args.command⟩
  · rcases hcase with hgoes | ⟨hcommits, hcommit, -⟩
    · rw [hgoes] at hpc
      cases hpc
    · rw [hnode, hcommit]
      refine ⟨(happended.ok.tryCommit_commits hcommits).1, ?_⟩
      rw [RaftNode.getLogEntry_succ, Cluster.log_tryCommit]
      show (((s.raft.nodes call'.args.node).persistent.log ++ [_])[_]?).map _ = _
      rw [List.getElem?_concat_length]
      rfl
  · rcases hcase with hgoes | ⟨hcommits, hcommit, hafter⟩
    · rw [hpc] at hgoes
      cases hgoes
    · rw [hnode, hcommit]
      refine (happended.ok.tryCommit_commits hcommits).2 ?_
      unfold Cluster.afterApply at hafter
      rw [hpc] at hafter
      split at hafter
      · cases hafter
      · rename_i hfalse
        exact Bool.eq_false_iff.mpr hfalse

omit [DecidableEq N] in
theorem commitTracked_boot (cfg : LockConfig N C R Rid) (start : N → ℚ) :
    CommitTracked cfg (boot start : LockCluster N C R Rid) where
  tracked := tracked_boot cfg start
  ok i := RaftNode.commitOk_boot none (start i)
  leaders i hl := by cases hl
  releases k task call hk := by cases hk

/-- The node of a call that is in `propose` keeps what it has committed. -/
theorem advances_of_pending {s s' : LockCluster N C R Rid} (h : CommitTracked cfg s)
    {x : Env C ℚ × LockAction N C R Rid} (hcond : s.CommitsFirst cfg x)
    (hstep : s.step cfg x = some s') {k : ℕ} {call' : Call N C R Rid}
    (hk : s'.calls[k]? = some call') (hp : call'.Pending) :
    Advances (s.raft.nodes call'.args.node) (s'.raft.nodes call'.args.node) := by
  obtain ⟨env, b⟩ := x
  rcases raft_step hstep with hraft | ⟨a, hraft, hcase⟩
  · rw [hraft]
    exact Advances.refl (h.ok _)
  · have hkeeps : s.raft.KeepsCommitted a := by
      rcases hcase with ⟨rfl, -⟩ | ⟨j, p, rfl, -⟩
      · exact hcond.1
      · trivial
    cases hcrash : a.crashFree with
    | true => exact Cluster.advances_step h.tracked.inPlace h.ok hkeeps hcrash hraft _
    | false =>
      rcases hcase with ⟨rfl, -⟩ | ⟨j, p, rfl, -⟩
      · obtain ⟨i, hactor, hnot⟩ := not_pending_of_crash hstep hcrash
        have hother := Cluster.nodes_of_ne_actor hraft (j := call'.args.node) (by
          rw [hactor]
          exact fun heq => hnot k call' hk (Option.some.inj heq).symm hp)
        rw [hother]
        exact Advances.refl (h.ok _)
      · cases hcrash

theorem CommitTracked.step {s s' : LockCluster N C R Rid} (h : CommitTracked cfg s)
    {x : Env C ℚ × LockAction N C R Rid} (hcond : s.CommitsFirst cfg x)
    (hstep : s.step cfg x = some s') : CommitTracked cfg s' where
  tracked := h.tracked.step hstep
  ok i := by
    obtain ⟨env, b⟩ := x
    rcases raft_step hstep with hraft | ⟨a, hraft, hcase⟩
    · rw [hraft]
      exact h.ok i
    · refine Cluster.commitOk_step h.tracked.inPlace h.ok ?_ hraft i
      rcases hcase with ⟨rfl, -⟩ | ⟨j, p, rfl, -⟩
      · exact hcond.1
      · trivial
  leaders i hl := by
    rcases raft_step hstep with hraft | ⟨a, hraft, -⟩
    · rw [hraft] at hl ⊢
      exact h.leaders i hl
    · exact Cluster.leaderState_step h.leaders hraft i hl
  releases k task call' hk hstage hop := by
    rcases proposing_step hstep hk hstage with ⟨call, hcall, hargs, hsame⟩ | hstart
    · rw [hargs] at hop
      obtain ⟨t, ht, hp⟩ := h.releases k task call hcall (hsame.symm.trans hstage) hop
      have hadv := advances_of_pending h hcond hstep hk (Or.inr ⟨task, hstage⟩)
      rw [hargs, ← hp.node] at hadv
      obtain ⟨env, b⟩ := x
      rcases raft_step hstep with hraft | ⟨a, hraft, hcase⟩
      · rw [hraft]
        refine ⟨t, ht, hargs ▸ hp.node, hp.kind, fun hpc index hindex => ?_,
          fun hpc index hindex => ?_⟩
        all_goals rw [hargs] at hindex
        · rw [hargs, hraft]
          exact hp.committed hpc index hindex
        · rw [hraft]
          exact hp.applied hpc index hindex
      · obtain ⟨t', ht', hprop⟩ := Cluster.proposeStep_step hraft ht hp.kind
        refine ⟨t', ht', hp.step (h.ok _) hadv hargs ht (fun n hends => ?_) hprop⟩
        rcases hcase with ⟨rfl, -⟩ | ⟨j, p, rfl, -⟩
        · refine hcond.2 (task, n) hends (call, k) ?_ (hsame.symm.trans hstage) hop
          exact List.mk_mem_zipIdx_iff_getElem?.mpr hcall
        · cases hends
    · exact Proposes.start h.ok h.leaders hstart

/-! ## Replies -/

/-- A release is answered when its `propose` has returned. -/
theorem returned_of_proposed {s s' : LockCluster N C R Rid} {env : Env C ℚ} {k : ℕ}
    (h : s.step cfg (env, .proposed k) = some s') {call : Call N C R Rid}
    (hk : s.calls[k]? = some call) : ∃ task t, call.stage = .proposing task ∧
      s.raft.tasks[task]? = some t ∧ t.pc = .returned := by
  simp only [step] at h
  rw [hk] at h
  dsimp only at h
  split at h
  · rename_i task hstage
    split at h
    · rename_i ht
      exact ⟨task, _, hstage, ht, rfl⟩
    · cases h
  · cases h

/-- What an answer of ACQUIRED or RELEASED promises. -/
structure Succeeded (s : LockCluster N C R Rid) (k : ℕ) (call : Call N C R Rid) (index : ℕ) :
    Prop where
  committed : (s.raft.nodes call.args.node).Committed index ⟨k, call.args.command⟩
  applied : (index, ⟨k, call.args.command⟩) ∈ (s.raft.nodes call.args.node).applied

omit [DecidableEq N] in
/-- The command of a call that was answered is committed and applied. -/
theorem CommitTracked.succeeded_of_answer {s : LockCluster N C R Rid} (h : CommitTracked cfg s)
    {k : ℕ} {call : Call N C R Rid} (hk : s.calls[k]? = some call) {status : LockStatus}
    (ha : (k, status) ∈ (s.managers call.args.node).replica.answers) {index : ℕ}
    (hindex : call.args.index = some index) : s.Succeeded k call index := by
  let i := call.args.node
  have hcalls : k ∈ ((s.raft.nodes i).applied.map Prod.snd).map Proposal.call := by
    refine (Replica.calls_answers_replay default _).subset ?_
    rw [← h.tracked.answers_eq i default]
    exact List.mem_map.mpr ⟨(k, status), ha, rfl⟩
  obtain ⟨p, hp, rfl⟩ := List.mem_map.mp hcalls
  obtain ⟨⟨index', p'⟩, happlied, rfl⟩ := List.mem_map.mp hp
  obtain ⟨call', hk', hindex', hcommand⟩ := h.tracked.applied i _ happlied
  obtain rfl := Option.some.inj (hk.symm.trans hk')
  obtain rfl := Option.some.inj (hindex.symm.trans hindex')
  obtain ⟨place, e, heq, hplace, he⟩ := (h.ok i).places _ happlied
  obtain ⟨rfl, rfl⟩ := Prod.mk.inj heq
  have hself : e.command = ⟨e.command.call, call.args.command⟩ := by
    rw [hcommand]
  have hle := (h.ok i).applied_le
  refine ⟨⟨?_, ?_⟩, hself ▸ happlied⟩
  · show place + 1 ≤ (s.raft.nodes i).volatile.commitIndex
    omega
  · show ((s.raft.nodes i).getLogEntry _).map _ = some (⟨e.command.call, _⟩ : Proposal C R Rid)
    rw [RaftNode.getLogEntry_succ, he, ← hself]
    rfl

/-- In the runs of `CommitsFirst` a call answers ACQUIRED or RELEASED on the node that proposed
    its command when that node has committed and applied the command. -/
theorem success_is_committed {start : N → ℚ}
    {before : List (Env C ℚ × LockAction N C R Rid)} {x : Env C ℚ × LockAction N C R Rid}
    {s s' : LockCluster N C R Rid}
    (hcond : (boot start).EachStep cfg (CommitsFirst cfg) (before ++ [x]))
    (hs : (boot start).run cfg before = some s) (hstep : s.step cfg x = some s') {k : ℕ}
    {call call' : Call N C R Rid} {index : ℕ} {status : LockStatus}
    (hk : s.calls[k]? = some call) (hindex : call.args.index = some index)
    (hnot : ∀ old, call.stage ≠ .returned old) (hk' : s'.calls[k]? = some call')
    (hreturned : call'.stage = .returned status)
    (hsuccess : status = .acquired ∨ status = .released) : s.Succeeded k call index := by
  obtain ⟨hbefore, hlast⟩ := Transition.EachStep.append hcond
  have h : CommitTracked cfg s := Transition.run_preserves
    (fun _ _ _ ht hc hst => CommitTracked.step ht hc hst) (commitTracked_boot cfg start) hbefore hs
  have hx : s.CommitsFirst cfg x := (hlast s hs).1
  -- a future that is resolved with ACQUIRED came with the answer to the call's own command
  have hfuture : call.Pending → call.future = some status → s.Unambiguous k →
      s.Succeeded k call index := by
    intro hp hf hunambiguous
    have hresolved := h.tracked.bookkeeping.futures k call status hk hp hf
    rcases hsuccess with rfl | rfl
    · rcases hresolved with hd | ⟨-, hans | hcol⟩
      · cases hd
      · exact h.succeeded_of_answer hk hans hindex
      · exact absurd hcol (hunambiguous call hk hf)
    · rcases hresolved with hd | ⟨hd | hd, -⟩ <;> cases hd
  have hmessage : call.message.isSome = true → s.Succeeded k call index := by
    intro hm
    have := h.tracked.bookkeeping.messages k call hk hm
    rw [hindex] at this
    cases this
  rcases returnedIn_step hstep k call' status hk' hreturned with
    ⟨old, hold, hreturns⟩ | hdenied
  · obtain rfl := Option.some.inj (hk.symm.trans hold)
    rcases hreturns with hreturned | hreturns
    · exact absurd hreturned (hnot status)
    · obtain ⟨env, b⟩ := x
      cases hreturns with
      | @proposed lockType task _ hop hstage hf => exact hfuture (Or.inr ⟨task, hstage⟩) hf hx
      | released hop =>
        obtain ⟨task, t, hstage, ht, hpc⟩ := returned_of_proposed hstep hk
        obtain ⟨t', ht', hp⟩ := h.releases k task call hk hstage hop
        obtain rfl := Option.some.inj (ht.symm.trans ht')
        have hcommitted := hp.committed (by rw [hpc]; rfl) index hindex
        have happlied := hcommitted.applied (h.ok _) (hp.applied hpc index hindex)
        rw [hp.node] at hcommitted happlied
        exact ⟨hcommitted, happlied⟩
      | wake hstage hf => exact hfuture (Or.inl hstage) hf hx
      | timeout => rcases hsuccess with hs | hs <;> cases hs
      | response _ hm => exact hmessage (by rw [hm]; rfl)
      | noResponse => rcases hsuccess with hs | hs <;> cases hs
  · rw [hdenied.status] at hreturned
    obtain rfl := CallStage.returned.inj hreturned
    rcases hsuccess with hs | hs <;> cases hs

/-! ## Concrete runs -/

/-- The nodes of three are written 0, 1 and 2. -/
scoped instance neZero_three : NeZero 3 := ⟨by decide⟩

theorem nodup_three : ([0, 1, 2] : List (Fin 3)).Nodup := by decide

def threeLocks : LockConfig (Fin 3) (Fin 2) (Fin 2) RequestId :=
  { nodes := [0, 1, 2], nodup := nodup_three, requestId := fun c r now => (c, r, now) }

/-- Some actions of three nodes at one clock reading. -/
def amongThree (now : ℚ) (acts : List (LockAction (Fin 3) (Fin 2) (Fin 2) RequestId)) :
    List (Env (Fin 2) ℚ × LockAction (Fin 3) (Fin 2) (Fin 2) RequestId) :=
  acts.map fun a => (⟨(LockTable.finEnv 2).order, now⟩, a)

/-- Node 0 leads, and client 0 calls `release_lock` there. -/
def releaseOnLeader : List (Env (Fin 2) ℚ × LockAction (Fin 3) (Fin 2) (Fin 2) RequestId) :=
  amongThree 1 [.raft (.electionTimeout 0 (1 / 5) 1), .raft (.deliver 0 1),
    .raft (.resumeHandler 0 1), .raft (.electionEnds 0 [1]), .raft (.becameLeader 0),
    .releaseLock 0 0 0]

/-- Node 1 takes the entry over and answers. -/
def answered : List (Env (Fin 2) ℚ × LockAction (Fin 3) (Fin 2) (Fin 2) RequestId) :=
  amongThree 2 [.raft (.deliver 2 2), .raft (.reply 1), .raft (.noReply 1), .raft (.resume 1)]

/-- No answer comes to the leader. -/
def unanswered : List (Env (Fin 2) ℚ × LockAction (Fin 3) (Fin 2) (Fin 2) RequestId) :=
  amongThree 2 [.raft (.noReply 1), .raft (.noReply 1)]

def proposeEnds : Env (Fin 2) ℚ × LockAction (Fin 3) (Fin 2) (Fin 2) RequestId :=
  (⟨(LockTable.finEnv 2).order, 3⟩, .proposed 0)

theorem success_is_committed_answered :
    ∃ (s s' : LockCluster (Fin 3) (Fin 2) (Fin 2) RequestId) (call call' : Call _ _ _ _),
      s.calls[0]? = some call ∧ s'.calls[0]? = some call' ∧
      call'.stage = .returned .released ∧ s.Succeeded 0 call 1 := by
  have hcond : (boot fun _ => 0).EachStep threeLocks (CommitsFirst threeLocks)
      ((releaseOnLeader ++ answered) ++ [proposeEnds]) := by
    decide +kernel
  have hrun : ((boot fun _ => 0).run threeLocks (releaseOnLeader ++ answered)).any (fun s =>
      (s.calls[0]?).any (fun call => decide (call.stage = .proposing 1) &&
          decide (call.args.index = some 1)) &&
        (s.step threeLocks proposeEnds).any fun s' => (s'.calls[0]?).any fun call' =>
          decide (call'.stage = .returned .released)) = true := by
    decide +kernel
  obtain ⟨s, hs, hrest⟩ := (Option.any_eq_true _ _).mp hrun
  obtain ⟨hcall, hrest⟩ := Bool.and_eq_true_iff.mp hrest
  obtain ⟨call, hk, hcall⟩ := (Option.any_eq_true _ _).mp hcall
  obtain ⟨hstage, hindex⟩ := Bool.and_eq_true_iff.mp hcall
  obtain ⟨s', hs', hrest⟩ := (Option.any_eq_true _ _).mp hrest
  obtain ⟨call', hk', hreturned⟩ := (Option.any_eq_true _ _).mp hrest
  have hp : call.Pending := Or.inr ⟨1, of_decide_eq_true hstage⟩
  exact ⟨s, s', call, call', hk, hk', of_decide_eq_true hreturned,
    success_is_committed hcond hs hs' hk (of_decide_eq_true hindex) hp.not_returned hk'
      (of_decide_eq_true hreturned) (Or.inr rfl)⟩

/-- The leader answers RELEASED although no other node has the entry. -/
theorem released_uncommitted :
    ¬ ∀ (before : List (Env (Fin 2) ℚ × LockAction (Fin 3) (Fin 2) (Fin 2) RequestId))
      (x : Env (Fin 2) ℚ × LockAction (Fin 3) (Fin 2) (Fin 2) RequestId)
      (s s' : LockCluster (Fin 3) (Fin 2) (Fin 2) RequestId) (k : ℕ) (call call' : Call _ _ _ _)
      (index : ℕ) (status : LockStatus), (boot fun _ => 0).run threeLocks before = some s →
      s.step threeLocks x = some s' → s.calls[k]? = some call → call.args.index = some index →
      (∀ old, call.stage ≠ .returned old) → s'.calls[k]? = some call' →
      call'.stage = .returned status → (status = .acquired ∨ status = .released) →
      s.Succeeded k call index := by
  intro hclaim
  have hrun : ((boot fun _ => 0).run threeLocks (releaseOnLeader ++ unanswered)).any (fun s =>
      (s.calls[0]?).any (fun call => decide (call.stage = .proposing 1) &&
          decide (call.args.index = some 1) &&
          decide ((s.raft.nodes call.args.node).volatile.commitIndex = 0)) &&
        (s.step threeLocks proposeEnds).any fun s' => (s'.calls[0]?).any fun call' =>
          decide (call'.stage = .returned .released)) = true := by
    decide +kernel
  obtain ⟨s, hs, hrest⟩ := (Option.any_eq_true _ _).mp hrun
  obtain ⟨hcall, hrest⟩ := Bool.and_eq_true_iff.mp hrest
  obtain ⟨call, hk, hcall⟩ := (Option.any_eq_true _ _).mp hcall
  obtain ⟨hcall, hcommit⟩ := Bool.and_eq_true_iff.mp hcall
  obtain ⟨hstage, hindex⟩ := Bool.and_eq_true_iff.mp hcall
  obtain ⟨s', hs', hrest⟩ := (Option.any_eq_true _ _).mp hrest
  obtain ⟨call', hk', hreturned⟩ := (Option.any_eq_true _ _).mp hrest
  have hp : call.Pending := Or.inr ⟨1, of_decide_eq_true hstage⟩
  have := (hclaim _ _ s s' 0 call call' 1 .released hs hs' hk (of_decide_eq_true hindex)
    hp.not_returned hk' (of_decide_eq_true hreturned) (Or.inr rfl)).committed.le
  rw [of_decide_eq_true hcommit] at this
  omega

end Pynchronize.LockCluster
