import Pynchronize.Lock.Timed
import Pynchronize.Raft.Hanging

/-!
# Locks through a follower

A call on a follower waits for the answer to its LOCK_REQUEST no longer than a
`transport.send` waits, and the `propose` of the leader takes a timeout for each
node that hangs. When these are at least as long as the other, every call that
is forwarded is answered DENIED, also one that gets the lock
(`forwarded_denied`).
-/

namespace Pynchronize.TimedLocks

open Lib TimedCluster

variable {N C R Rid : Type*} [DecidableEq N]

/-- The nodes in `hung` answer nothing, and an answer to a LOCK_REQUEST comes less than `limit`
    after the call that sent it started. -/
def Hangs (hung : List N) (limit : ℚ) (s : TimedLocks N C R Rid)
    (x : ℚ × Env C ℚ × LockAction N C R Rid) : Prop :=
  match x.2.2 with
  | .raft a => TimedCluster.Hangs hung s.raft (x.1, a)
  | .response k => x.1 < s.startedAt k + limit ∧
      ∀ call ∈ s.locks.calls[k]?, ∀ message ∈ call.message, message.1 ∉ hung
  | _ => True

/-- The call has taken a timeout for each other node that hangs. -/
def Spends (cfg : Config N) (hung : List N) (s : TimedLocks N C R Rid) (k : ℕ)
    (call : Call N C R Rid) : Prop :=
  s.startedAt k + requestTimeout * hanging hung (cfg.getOtherNodes call.args.node) ≤ s.clock.now

/-- The coroutine of `propose` that a call started. -/
structure Drives (s : TimedLocks N C R Rid) (k : ℕ) (call : Call N C R Rid)
    (task : Task N (Proposal C R Rid)) (j : ℕ) : Prop where
  index : call.args.index.isSome = true
  running : s.locks.raft.tasks[j]? = some task
  node : task.node = call.args.node
  kind : task.kind = .propose
  since : s.clock.since j = s.startedAt k

/-- What the calls have spent, in a cluster that was reached. -/
structure Delayed (cfg : Config N) (hung : List N) (s : TimedLocks N C R Rid) : Prop where
  waited : s.raft.Waited cfg hung
  started : ∀ (k : ℕ) call, s.locks.calls[k]? = some call → s.startedAt k ≤ s.clock.now
  proposing : ∀ (k : ℕ) call j, s.locks.calls[k]? = some call → call.stage = .proposing j →
    ∃ task, s.Drives k call task j
  waiting : ∀ (k : ℕ) call, s.locks.calls[k]? = some call → call.stage = .waiting →
    call.args.index.isSome = true ∧ s.Spends cfg hung k call
  returned : ∀ (k : ℕ) call status, s.locks.calls[k]? = some call → call.stage = .returned status →
    status = .denied ∨ call.args.index.isSome = true ∧ s.Spends cfg hung k call
  forwarded : ∀ (k : ℕ) call, s.locks.calls[k]? = some call → call.stage = .forwarding →
    call.args.index = none
  children : ∀ (k : ℕ) call target j, s.locks.calls[k]? = some call →
    call.message = some (target, .handled j) →
    ∃ child, s.locks.calls[j]? = some child ∧ child.args.node = target ∧
      s.startedAt k ≤ s.startedAt j

variable [DecidableEq C] [DecidableEq R] [DecidableEq Rid] {cfg : LockConfig N C R Rid}
  {hung : List N} {limit t : ℚ} {s s' : TimedLocks N C R Rid} {x : Env C ℚ × LockAction N C R Rid}

/-! ## The coroutine of a call -/

omit [DecidableEq N] [DecidableEq C] [DecidableEq R] [DecidableEq Rid] in
theorem Hangs.raft {a : Action N (Proposal C R Rid)} (h : Hangs hung limit s (t, x))
    (hcase : x.2 = .raft a ∨ ∃ i p, a = .propose i p) : TimedCluster.Hangs hung s.raft (t, a) := by
  obtain ⟨env, b⟩ := x
  rcases hcase with heq | ⟨i, p, rfl⟩
  · obtain rfl : b = .raft a := heq
    exact h
  · intro k hends
    cases hends

theorem waited_step (h : s.raft.Waited cfg.toConfig hung) (hhangs : Hangs hung limit s (t, x))
    (hs : s.step cfg (t, x) = some s') : s'.raft.Waited cfg.toConfig hung := by
  obtain ⟨-, htick⟩ := step_cases hs
  rcases raft_cases hs with ⟨hraft, hclock⟩ | ⟨a, hraft, hcase⟩
  · refine ⟨fun i => ?_, fun k task hk hkind => ?_⟩
    · show (s'.locks.raft.nodes i).Leads
      rw [hraft]
      exact h.leads i
    · have hk' : s'.locks.raft.tasks[k]? = some task := hk
      have hkold : s.locks.raft.tasks[k]? = some task := by rw [← hraft]; exact hk'
      have hsince : s'.raft.clock.since k = s.raft.clock.since k := by
        show s'.clock.since k = _
        rw [hclock]
        exact s.clock.since_after_of_idle hkold hk' rfl
      rw [hsince]
      refine (h.slow k task hkold hkind).stays (i := none) ?_ htick.le hclock
      show Cluster.KeepsRpcs none s.locks.raft.rpcs s'.locks.raft.rpcs
      rw [hraft]
      exact Cluster.KeepsRpcs.refl _ _
  · exact TimedCluster.waited_step h (hhangs.raft hcase) hraft

/-- The coroutine of a call goes on, in the round that the call has started. -/
theorem Drives.step {k j : ℕ} {call call' : Call N C R Rid} {task : Task N (Proposal C R Rid)}
    (h : s.Drives k call task j) (hwaited : s.raft.Waited cfg.toConfig hung)
    (hhangs : Hangs hung limit s (t, x)) (hk : s.locks.calls[k]? = some call)
    (hargs : call'.args = call.args) (hs : s.step cfg (t, x) = some s') :
    ∃ task', s'.Drives k call' task' j := by
  obtain ⟨-, htick⟩ := step_cases hs
  have hstarted := htick.old k call hk
  rcases raft_cases hs with ⟨hraft, hclock⟩ | ⟨a, hraft, hcase⟩
  · have htask : s'.locks.raft.tasks[j]? = some task := by
      rw [hraft]
      exact h.running
    refine ⟨task, hargs ▸ h.index, htask, hargs ▸ h.node, h.kind, ?_⟩
    rw [hstarted, ← h.since, hclock]
    exact s.clock.since_after_of_idle h.running htask rfl
  · obtain ⟨hle, -, hcluster, hclock⟩ := TimedCluster.step_cases hraft
    obtain ⟨pc, htask, hsince, -⟩ := slow_step hle hcluster hclock (hhangs.raft hcase) h.running
      h.kind (hwaited.slow j task h.running h.kind)
    exact ⟨_, hargs ▸ h.index, htask, hargs ▸ h.node, h.kind,
      hsince.trans (h.since.trans hstarted.symm)⟩

omit [DecidableEq C] [DecidableEq R] [DecidableEq Rid] in
/-- A call whose `propose` has returned. -/
theorem Delayed.spends (h : Delayed cfg.toConfig hung s) {k : ℕ} {call : Call N C R Rid}
    (hk : s.locks.calls[k]? = some call) {j : ℕ} {task : Task N (Proposal C R Rid)}
    (hstage : call.stage = .proposing j) (htask : s.locks.raft.tasks[j]? = some task)
    (hpc : task.pc = .returned) :
    call.args.index.isSome = true ∧ s.Spends cfg.toConfig hung k call := by
  obtain ⟨task', hdrives⟩ := h.proposing k call j hk hstage
  obtain rfl := Option.some.inj (htask.symm.trans hdrives.running)
  have hslow : s.clock.since j + requestTimeout * hanging hung (cfg.getOtherNodes task.node) ≤
      s.clock.now := (h.waited.slow j task htask hdrives.kind).of_returned hpc
  rw [hdrives.since, hdrives.node] at hslow
  exact ⟨hdrives.index, hslow⟩

theorem Spends.later {k : ℕ} {call call' : Call N C R Rid} (h : s.Spends cfg.toConfig hung k call)
    (hk : s.locks.calls[k]? = some call) (hargs : call'.args = call.args)
    (hs : s.step cfg (t, x) = some s') : s'.Spends cfg.toConfig hung k call' := by
  obtain ⟨-, htick⟩ := step_cases hs
  unfold Spends at h ⊢
  rw [htick.old k call hk, hargs, htick.clock]
  exact h.trans htick.le

/-! ## One step -/

theorem returned_step (h : Delayed cfg.toConfig hung s)
    (hlimit : ∀ i, i ∉ hung → limit ≤ requestTimeout * hanging hung (cfg.getOtherNodes i))
    (hhangs : Hangs hung limit s (t, x)) (hs : s.step cfg (t, x) = some s') {k : ℕ}
    {call : Call N C R Rid} {status : LockStatus} (hk : s.locks.calls[k]? = some call)
    (hreturns : LockCluster.Returns s.locks k call x.2 status) :
    status = .denied ∨ call.args.index.isSome = true ∧ s.Spends cfg.toConfig hung k call := by
  obtain ⟨hlocks, htick⟩ := step_cases hs
  obtain ⟨env, b⟩ := x
  cases hreturns with
  | proposed =>
    obtain ⟨j, task, hstage, htask, hpc⟩ := LockCluster.returned_of_proposed hlocks hk
    exact Or.inr (h.spends hk hstage htask hpc)
  | released =>
    obtain ⟨j, task, hstage, htask, hpc⟩ := LockCluster.returned_of_proposed hlocks hk
    exact Or.inr (h.spends hk hstage htask hpc)
  | wake hstage => exact Or.inr (h.waiting k call hk hstage)
  | timeout hstage => exact Or.inr (h.waiting k call hk hstage)
  | @response target j child status hstage hmessage hj hchild =>
    obtain ⟨hlt, hnot⟩ := hhangs
    obtain ⟨child', hj', hnode, hle⟩ := h.children k call target j hk hmessage
    obtain rfl := Option.some.inj (hj.symm.trans hj')
    rcases h.returned j child status hj hchild with hdenied | ⟨-, hspends⟩
    · exact Or.inl hdenied
    -- the answer would have to come when the other side no longer waits
    · unfold Spends at hspends
      rw [hnode] at hspends
      have hcount := hlimit target (hnot call hk _ hmessage)
      have hnow := htick.le
      exact absurd hlt (not_lt.mpr (by linarith))
  | noResponse => exact Or.inl rfl

/-- The coroutine that a new call starts. -/
theorem drives_of_new (h : s.raft.Waited cfg.toConfig hung) (hs : s.step cfg (t, x) = some s')
    {k j : ℕ} {call call' : Call N C R Rid} (hk : s.locks.calls[k]? = none)
    (hnew : LockCluster.NewCall cfg s.locks s'.locks.raft call)
    (houtline : call'.outline = call.outline) (hstage : call'.stage = .proposing j) :
    ∃ task, s'.Drives k call' task j := by
  obtain ⟨hlocks, htick⟩ := step_cases hs
  have hargs : call'.args = call.args := congrArg (·.1) houtline
  have hstage : call.stage = .proposing j := (congrArg (·.2.1) houtline).symm.trans hstage
  cases hnew with
  | @proposes args p hindex hraft =>
    obtain rfl : s.locks.raft.tasks.length = j := CallStage.proposing.inj hstage
    obtain ⟨pc, htasks, -⟩ := Cluster.tasks_of_propose hraft
      ((h.leads args.node).mpr (Cluster.leader_of_propose hraft))
    refine ⟨⟨args.node, .propose, pc⟩, hargs ▸ hindex, ?_, by rw [hargs], rfl, ?_⟩
    · rw [htasks]
      exact List.getElem?_concat_length
    · rw [htick.new k hk, htick.clock]
      exact s.clock.since_after_new (List.getElem?_eq_none (Nat.le_refl _))
  | forwards => cases hstage
  | denied => cases hstage

/-- Where call `k` of the next state comes from: it has just started, or it was there and took its
    part in the step. -/
inductive Origin (cfg : LockConfig N C R Rid) (s s' : TimedLocks N C R Rid)
    (x : Env C ℚ × LockAction N C R Rid) (k : ℕ) (call' : Call N C R Rid) : Prop
  | starts {call : Call N C R Rid} (hk : s.locks.calls[k]? = none)
      (hnew : LockCluster.NewCall cfg s.locks s'.locks.raft call)
      (houtline : call'.outline = call.outline)
  | continues {call : Call N C R Rid} (hk : s.locks.calls[k]? = some call)
      (hargs : call'.args = call.args)
      (hstep : LockCluster.CallStep s.locks x.2 k call call'.stage call'.message)

theorem origin_of_step (hs : s.step cfg (t, x) = some s') {k : ℕ} {call' : Call N C R Rid}
    (hk' : s'.locks.calls[k]? = some call') : Origin cfg s s' x k call' := by
  obtain ⟨hlocks, -⟩ := step_cases hs
  cases hk : s.locks.calls[k]? with
  | none =>
    obtain ⟨call, hnew, houtline⟩ := LockCluster.new_call hlocks hk hk'
    exact .starts hk hnew houtline
  | some call =>
    obtain ⟨call'', hk'', hargs, hstep⟩ := LockCluster.callStep_step hlocks hk
    obtain rfl := Option.some.inj (hk'.symm.trans hk'')
    exact .continues hk hargs hstep

section Step

variable {k : ℕ} {call' : Call N C R Rid}

theorem Delayed.step_started (h : Delayed cfg.toConfig hung s) (hs : s.step cfg (t, x) = some s')
    (hk' : s'.locks.calls[k]? = some call') : s'.startedAt k ≤ s'.clock.now := by
  obtain ⟨-, htick⟩ := step_cases hs
  have hnow : s'.clock.now = t := congrArg Clock.now htick.clock
  rw [hnow]
  cases origin_of_step hs hk' with
  | starts hk => rw [htick.new k hk]
  | @continues call hk =>
    rw [htick.old k call hk]
    exact (h.started k call hk).trans htick.le

theorem Delayed.step_proposing (h : Delayed cfg.toConfig hung s)
    (hhangs : Hangs hung limit s (t, x)) (hs : s.step cfg (t, x) = some s')
    (hk' : s'.locks.calls[k]? = some call') {j : ℕ} (hstage : call'.stage = .proposing j) :
    ∃ task, s'.Drives k call' task j := by
  cases origin_of_step hs hk' with
  | starts hk hnew houtline => exact drives_of_new h.waited hs hk hnew houtline hstage
  | @continues call hk hargs hstep =>
    obtain ⟨task, hdrives⟩ := h.proposing k call j hk (hstep.proposing hstage)
    exact hdrives.step h.waited hhangs hk hargs hs

/-- What a call has spent, it has spent after the step. -/
theorem Spends.kept {call : Call N C R Rid}
    (h : call.args.index.isSome = true ∧ s.Spends cfg.toConfig hung k call)
    (hk : s.locks.calls[k]? = some call) (hargs : call'.args = call.args)
    (hs : s.step cfg (t, x) = some s') :
    call'.args.index.isSome = true ∧ s'.Spends cfg.toConfig hung k call' :=
  ⟨hargs ▸ h.1, h.2.later hk hargs hs⟩

theorem Delayed.step_waiting (h : Delayed cfg.toConfig hung s) (hs : s.step cfg (t, x) = some s')
    (hk' : s'.locks.calls[k]? = some call') (hstage : call'.stage = .waiting) :
    call'.args.index.isSome = true ∧ s'.Spends cfg.toConfig hung k call' := by
  cases origin_of_step hs hk' with
  | starts hk hnew houtline =>
    have hstage := (congrArg (·.2.1) houtline).symm.trans hstage
    cases hnew <;> cases hstage
  | @continues call hk hargs hstep =>
    refine Spends.kept ?_ hk hargs hs
    rcases hstep.waiting hstage with hold | ha
    · exact h.waiting k call hk hold
    · -- its `propose` has just returned
      obtain ⟨hlocks, -⟩ := step_cases hs
      obtain ⟨env, b⟩ := x
      obtain rfl : b = .proposed k := ha
      obtain ⟨j, task, hproposing, htask, hpc⟩ := LockCluster.returned_of_proposed hlocks hk
      exact h.spends hk hproposing htask hpc

theorem Delayed.step_returned (h : Delayed cfg.toConfig hung s)
    (hlimit : ∀ i, i ∉ hung → limit ≤ requestTimeout * hanging hung (cfg.getOtherNodes i))
    (hhangs : Hangs hung limit s (t, x)) (hs : s.step cfg (t, x) = some s')
    (hk' : s'.locks.calls[k]? = some call') {status : LockStatus}
    (hstage : call'.stage = .returned status) :
    status = .denied ∨
      call'.args.index.isSome = true ∧ s'.Spends cfg.toConfig hung k call' := by
  cases origin_of_step hs hk' with
  | starts hk hnew houtline =>
    have hstage := (congrArg (·.2.1) houtline).symm.trans hstage
    cases hnew with
    | denied => exact Or.inl (CallStage.returned.inj hstage).symm
    | _ => cases hstage
  | @continues call hk hargs hstep =>
    refine Or.imp_right (fun hspends => Spends.kept hspends hk hargs hs) ?_
    rcases hstep.returned hstage with hold | hreturns
    · exact h.returned k call status hk hold
    · exact returned_step h hlimit hhangs hs hk hreturns

theorem Delayed.step_forwarded (h : Delayed cfg.toConfig hung s)
    (hs : s.step cfg (t, x) = some s') (hk' : s'.locks.calls[k]? = some call')
    (hstage : call'.stage = .forwarding) : call'.args.index = none := by
  cases origin_of_step hs hk' with
  | starts hk hnew houtline =>
    have hargs : call'.args = _ := congrArg (·.1) houtline
    have hstage := (congrArg (·.2.1) houtline).symm.trans hstage
    rw [hargs]
    cases hnew with
    | forwards hindex => exact hindex
    | _ => cases hstage
  | @continues call hk hargs hstep =>
    rw [hargs]
    exact h.forwarded k call hk (hstep.forwarding hstage)

theorem Delayed.step_children (h : Delayed cfg.toConfig hung s)
    (hs : s.step cfg (t, x) = some s') (hk' : s'.locks.calls[k]? = some call') {target : N}
    {j : ℕ} (hmessage : call'.message = some (target, .handled j)) :
    ∃ child, s'.locks.calls[j]? = some child ∧ child.args.node = target ∧
      s'.startedAt k ≤ s'.startedAt j := by
  obtain ⟨hlocks, htick⟩ := step_cases hs
  cases origin_of_step hs hk' with
  | starts hk hnew houtline =>
    have hmessage := (congrArg (·.2.2) houtline).symm.trans hmessage
    cases hnew <;> cases hmessage
  | @continues call hk hargs hstep =>
    rw [htick.old k call hk]
    rcases hstep.handled hmessage with hold | ⟨ha, hinFlight, rfl⟩
    · obtain ⟨child, hj, hnode, hle⟩ := h.children k call target j hk hold
      obtain ⟨child', hj', hargs, -⟩ := LockCluster.callStep_step hlocks hj
      refine ⟨child', hj', hargs ▸ hnode, ?_⟩
      rw [htick.old j child hj]
      exact hle
    · -- the request arrives, and its call starts
      obtain ⟨env, b⟩ := x
      obtain rfl : b = .deliver k := ha
      obtain ⟨child, hj, hnode⟩ := LockCluster.exists_child hlocks hk hinFlight
      refine ⟨child, hj, hnode, ?_⟩
      rw [htick.new _ (List.getElem?_eq_none (Nat.le_refl _))]
      exact (h.started k call hk).trans htick.le

end Step

theorem delayed_step (h : Delayed cfg.toConfig hung s)
    (hlimit : ∀ i, i ∉ hung → limit ≤ requestTimeout * hanging hung (cfg.getOtherNodes i))
    (hhangs : Hangs hung limit s (t, x)) (hs : s.step cfg (t, x) = some s') :
    Delayed cfg.toConfig hung s' where
  waited := waited_step h.waited hhangs hs
  started _ _ hk' := h.step_started hs hk'
  proposing _ _ _ hk' hstage := h.step_proposing hhangs hs hk' hstage
  waiting _ _ hk' hstage := h.step_waiting hs hk' hstage
  returned _ _ _ hk' hstage := h.step_returned hlimit hhangs hs hk' hstage
  forwarded _ _ hk' hstage := h.step_forwarded hs hk' hstage
  children _ _ _ _ hk' hmessage := h.step_children hs hk' hmessage

/-! ## Runs -/

omit [DecidableEq C] [DecidableEq R] [DecidableEq Rid] in
theorem hanging_getOtherNodes {i : N} (hi : i ∉ hung) :
    hanging hung (cfg.getOtherNodes i) = hanging hung cfg.nodes := by
  unfold hanging Config.getOtherNodes
  rw [List.countP_filter]
  refine List.countP_congr fun j _ => ?_
  simp only [decide_eq_true_eq, Bool.and_eq_true]
  exact ⟨fun h => h.1, fun h => ⟨h, fun heq => hi (heq ▸ h)⟩⟩

/-- **No lock through a follower.** When as many nodes hang as the timeout of a request has room
    for, no call that is forwarded is answered anything but DENIED, and the others return after a
    timeout for each other node that hangs. -/
theorem forwarded_denied {start : N → ℚ} {now : ℚ}
    {xs : List (ℚ × Env C ℚ × LockAction N C R Rid)} (hrun : (boot start now).run cfg xs = some s)
    (hlimit : limit ≤ requestTimeout * hanging hung cfg.nodes)
    (hhangs : (boot start now).EachStep cfg (Hangs hung limit) xs) {k : ℕ}
    {call : Call N C R Rid} {status : LockStatus} (hk : s.locks.calls[k]? = some call)
    (hstage : call.stage = .returned status) (hnot : status ≠ .denied) :
    call.args.index.isSome = true ∧
      s.startedAt k + requestTimeout * hanging hung (cfg.getOtherNodes call.args.node) ≤
        s.clock.now := by
  have hboot : Delayed cfg.toConfig hung (boot start now : TimedLocks N C R Rid) :=
    { waited := ⟨Cluster.leads_boot start, fun _ _ hk => by cases hk⟩
      started := fun _ _ hk => by cases hk
      proposing := fun _ _ _ hk => by cases hk
      waiting := fun _ _ hk => by cases hk
      returned := fun _ _ _ hk => by cases hk
      forwarded := fun _ _ hk => by cases hk
      children := fun _ _ _ _ hk => by cases hk }
  have hroom : ∀ i, i ∉ hung → limit ≤ requestTimeout * hanging hung (cfg.getOtherNodes i) := by
    intro i hi
    rw [hanging_getOtherNodes hi]
    exact hlimit
  have hend : Delayed cfg.toConfig hung s := Transition.run_preserves
    (fun _ _ _ hs hstepHangs hstep => delayed_step hs hroom hstepHangs hstep) hboot hhangs hrun
  exact (hend.returned k call status hk hstage).resolve_left hnot

/-! ## A lock that is granted and denied -/

open scoped LockCluster

instance (hung : List N) (limit : ℚ) (s : TimedLocks N C R Rid)
    (x : ℚ × Env C ℚ × LockAction N C R Rid) : Decidable (Hangs hung limit s x) := by
  unfold Hangs
  split <;> infer_instance

/-- Some actions of three nodes at one time. -/
def atTime (t : ℚ) (acts : List (LockAction (Fin 3) (Fin 2) (Fin 2) LockCluster.RequestId)) :
    List (ℚ × Env (Fin 2) ℚ × LockAction (Fin 3) (Fin 2) (Fin 2) LockCluster.RequestId) :=
  (LockCluster.amongThree t acts).map fun x => (t, x)

/-- Node 2 hangs, node 0 leads, and client 0 asks node 1 for a lock. -/
def lockThroughFollower :
    List (ℚ × Env (Fin 2) ℚ × LockAction (Fin 3) (Fin 2) (Fin 2) LockCluster.RequestId) :=
  atTime 1 [.raft (.electionTimeout 0 (1 / 5) 1), .raft (.deliver 0 1),
      .raft (.resumeHandler 0 1)] ++
    atTime 6 [.raft (.electionEnds 0 [1]), .raft (.becameLeader 0), .raft (.heartbeat 0),
      .raft (.deliver 2 6), .raft (.reply 0), .acquireLock 1 0 0 .exclusive, .deliver 0,
      .raft (.deliver 4 6), .raft (.reply 1)] ++
    atTime 11 [.raft (.noReply 1), .noResponse 0, .raft (.resume 1), .proposed 1]

theorem forwarded_denied_lockThroughFollower :
    ∃ (s : TimedLocks (Fin 3) (Fin 2) (Fin 2) LockCluster.RequestId) (call child : Call _ _ _ _),
      (boot (fun _ => 0) 0).run LockCluster.threeLocks lockThroughFollower = some s ∧
      s.locks.calls[0]? = some call ∧ call.stage = .returned .denied ∧
      s.locks.calls[1]? = some child ∧ child.stage = .returned .acquired ∧
      s.startedAt 1 + requestTimeout *
          hanging [2] (LockCluster.threeLocks.getOtherNodes child.args.node) ≤ s.clock.now := by
  have hrun : ((boot (fun _ => 0) 0 : TimedLocks (Fin 3) (Fin 2) (Fin 2) _).run
      LockCluster.threeLocks lockThroughFollower).any (fun s =>
        (s.locks.calls[0]?).any (fun call => decide (call.stage = .returned .denied)) &&
          (s.locks.calls[1]?).any fun child => decide (child.stage = .returned .acquired)) =
      true := by
    decide +kernel
  have hhangs : (boot (fun _ => 0) 0 : TimedLocks (Fin 3) (Fin 2) (Fin 2) _).EachStep
      LockCluster.threeLocks (Hangs [2] 5) lockThroughFollower := by
    decide +kernel
  obtain ⟨s, hs, hp⟩ := (Option.any_eq_true _ _).mp hrun
  obtain ⟨hcall, hchild⟩ := Bool.and_eq_true_iff.mp hp
  obtain ⟨call, hk, hdenied⟩ := (Option.any_eq_true _ _).mp hcall
  obtain ⟨child, hj, hacquired⟩ := (Option.any_eq_true _ _).mp hchild
  have hlong := forwarded_denied hs (by decide +kernel) hhangs hj (of_decide_eq_true hacquired)
    (by decide)
  exact ⟨s, call, child, hs, hk, of_decide_eq_true hdenied, hj, of_decide_eq_true hacquired,
    hlong.2⟩

end Pynchronize.TimedLocks
