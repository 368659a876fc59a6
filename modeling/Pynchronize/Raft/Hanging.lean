import Pynchronize.Base.Suspicion
import Pynchronize.Raft.Timed

/-!
# Followers that hang

`_send_append_entries` sends to one node after the other, and a node that takes
requests and answers none holds it up until the timeout of the send. A
`propose` takes five seconds for each of them, whether it has a majority or not
(`propose_slow`).
-/

namespace Pynchronize

open Lib

variable {N C : Type*}

/-- The coroutine whose `transport.send` returns. -/
def Action.endsSend : Action N C → Option ℕ
  | .reply k => some k
  | .noReply k => some k
  | _ => none

/-- The RPC that the coroutine waits for. -/
def Pc.rpc : Pc N C → Option ℕ
  | .sending _ j _ => some j
  | _ => none

def Pc.isReturned : Pc N C → Bool
  | .returned => true
  | _ => false

theorem Pc.eq_returned {pc : Pc N C} (h : pc.isReturned = true) : pc = .returned := by
  cases pc with
  | returned => rfl
  | _ => cases h

namespace TimedCluster

variable [DecidableEq N]

/-- The nodes in `hung` answer nothing, so sends to them end by their timeout only. -/
def Hangs (hung : List N) (s : TimedCluster N C) (a : ℚ × Action N C) : Prop :=
  ∀ k ∈ a.2.endsSend, ∀ task ∈ s.cluster.tasks[k]?, ∀ j ∈ task.pc.rpc,
    ∀ r ∈ s.cluster.rpcs[j]?, r.dst ∈ hung → s.clock.sentAt j + requestTimeout ≤ a.1

/-- How many of the nodes hang. -/
def hanging (hung : List N) (nodes : List N) : ℕ := nodes.countP fun i => i ∈ hung

variable {cfg : Config N} {hung : List N} {s s' : TimedCluster N C} {t : ℚ} {a : Action N C}
  {k : ℕ} {task task' : Task N C}

theorem hanging_cons (i : N) (rest : List N) :
    hanging hung (i :: rest) = hanging hung rest + if i ∈ hung then 1 else 0 := by
  unfold hanging
  rw [List.countP_cons]
  simp

/-- A round since `since` has taken a timeout until `time` for each node that hangs and is not among
    those still to come. -/
def Spent (cfg : Config N) (hung : List N) (i : N) (since time : ℚ) (rest : List N) : Prop :=
  since + requestTimeout * hanging hung (cfg.getOtherNodes i) ≤
    time + requestTimeout * hanging hung rest

/-- What the coroutine of a `propose` that was called at `since` has spent. -/
def Slow (cfg : Config N) (hung : List N) (s : TimedCluster N C) (since : ℚ) (task : Task N C) :
    Prop :=
  match task.pc with
  | .looping => False
  | .sending _ j rest => ∃ r, s.cluster.rpcs[j]? = some r ∧ s.clock.sentAt j ≤ s.clock.now ∧
      Spent cfg hung task.node since (s.clock.sentAt j) (r.dst :: rest)
  | .steppingDown rest => Spent cfg hung task.node since s.clock.now rest
  | .applying => Spent cfg hung task.node since s.clock.now []
  | .returned => Spent cfg hung task.node since s.clock.now []
  | _ => True

theorem Spent.later {i : N} {since time time' : ℚ} {rest : List N}
    (h : Spent cfg hung i since time rest) (hle : time ≤ time') :
    Spent cfg hung i since time' rest :=
  h.trans (add_le_add_left hle _)

/-- A coroutine that is woken has spent the timeout of the node it waited for, if that hangs. -/
theorem Slow.woken {since : ℚ} (h : Slow cfg hung s since task) (hle : s.clock.now ≤ t)
    (hk : s.cluster.tasks[k]? = some task) (hhangs : Hangs hung s (t, a))
    (hwakes : a.Wakes k task.pc) : Spent cfg hung task.node since t (task.remaining cfg) := by
  obtain ⟨node, kind, pc⟩ := task
  cases pc with
  | looping => exact h.elim
  | sending o j rest =>
    obtain ⟨r, hr, hsentAt, hspent⟩ := h
    have hends : k ∈ a.endsSend := by
      rcases hwakes with rfl | rfl
      · rfl
      · rfl
    have htimeout : r.dst ∈ hung → s.clock.sentAt j + requestTimeout ≤ t :=
      hhangs k hends _ hk j rfl r hr
    unfold Spent at hspent ⊢
    rw [hanging_cons] at hspent
    split at hspent
    · rename_i hmem
      have := htimeout hmem
      push_cast at hspent
      show _ ≤ t + requestTimeout * hanging hung rest
      linarith
    · have := hsentAt.trans hle
      push_cast at hspent
      show _ ≤ t + requestTimeout * hanging hung rest
      linarith
  | steppingDown rest => exact Spent.later h hle
  | applying => exact Spent.later h hle
  | _ => cases hwakes

/-- A coroutine that does not run has spent what it had spent. -/
theorem Slow.stays {since : ℚ} (h : Slow cfg hung s since task) {i : Option N}
    (hkeeps : Cluster.KeepsRpcs i s.cluster.rpcs s'.cluster.rpcs) (hle : s.clock.now ≤ t)
    {begins : ℕ → Bool} (hclock : s'.clock = s.clock.after s.cluster s'.cluster begins t) :
    Slow cfg hung s' since task := by
  have hnow : s'.clock.now = t := congrArg Clock.now hclock
  obtain ⟨node, kind, pc⟩ := task
  cases pc with
  | looping => exact h.elim
  | sending o j rest =>
    obtain ⟨r, hr, hsentAt, hspent⟩ := h
    obtain ⟨r', hr', hrequest, -⟩ := hkeeps j r hr
    have hdst : r'.dst = r.dst := congrArg (fun x => x.2.1) hrequest
    have hsame : s'.clock.sentAt j = s.clock.sentAt j := by
      rw [hclock]
      exact s.clock.sentAt_after hr
    refine ⟨r', hr', ?_, ?_⟩
    · rw [hsame, hnow]
      exact hsentAt.trans hle
    · rw [hsame, hdst]
      exact hspent
  | steppingDown rest => exact Spent.later h (hle.trans hnow.ge)
  | applying => exact Spent.later h (hle.trans hnow.ge)
  | returned => exact Spent.later h (hle.trans hnow.ge)
  | raised => trivial
  | cancelled => trivial

/-- The coroutine of a `propose` spends a timeout on each node that hangs. -/
theorem slow_step (hle : s.clock.now ≤ t) (hcluster : s.cluster.step cfg a = some s'.cluster)
    (hclock : s'.clock = s.clock.after s.cluster s'.cluster a.beginsRound t)
    (hhangs : Hangs hung s (t, a)) (hk : s.cluster.tasks[k]? = some task)
    (hkind : task.kind = .propose) {since : ℚ} (h : Slow cfg hung s since task) :
    ∃ pc, s'.cluster.tasks[k]? = some { task with pc := pc } ∧
      s'.clock.since k = s.clock.since k ∧ Slow cfg hung s' since { task with pc := pc } := by
  obtain ⟨task', hk', hstep⟩ := Cluster.taskStep_step hcluster hk
  have hnow : s'.clock.now = t := congrArg Clock.now hclock
  have hbegins : a.beginsRound k = false := by
    refine Bool.eq_false_iff.mpr fun hb => ?_
    rw [Cluster.kind_of_beginsRound hcluster hk hb] at hkind
    cases hkind
  have hsince : task'.pc.isLooping = false → s'.clock.since k = s.clock.since k := by
    intro hpc
    rw [hclock, s.clock.since_after hk hk', hbegins, hpc]
    simp
  cases hstep with
  | stays =>
    refine ⟨task.pc, hk', ?_, h.stays (Cluster.keepsRpcs_step hcluster) hle hclock⟩
    rw [hclock]
    exact s.clock.since_after_of_idle hk hk' hbegins
  | cancelled => exact ⟨.cancelled, hk', hsince rfl, trivial⟩
  | raises => exact ⟨.raised, hk', hsince rfl, trivial⟩
  | stepsDown _ hwakes =>
    refine ⟨_, hk', hsince rfl, ?_⟩
    exact Spent.later (h.woken hle hk hhangs hwakes) hnow.ge
  | @sends o nodeId rest r hwakes hrest hsent happends =>
    have hsame : s'.clock.sentAt s.cluster.rpcs.length = t := by
      rw [hclock]
      exact s.clock.sentAt_after_length
    have hspent := h.woken hle hk hhangs hwakes
    rw [hrest] at hspent
    refine ⟨_, hk', hsince rfl, r, hsent, hsame.le.trans hnow.ge, ?_⟩
    rw [hsame, happends.dst]
    exact hspent
  | @ends pc hwakes hrest hpc =>
    have hspent := h.woken hle hk hhangs hwakes
    have hrest : task.remaining cfg = [] := by
      rcases hrest with hrest | ⟨hlooping, -⟩
      · exact hrest
      · unfold Slow at h
        rw [hlooping] at h
        exact h.elim
    rw [hrest] at hspent
    have hspent := hspent.later hnow.ge
    rw [hkind] at hpc
    rcases hpc with rfl | rfl | ⟨rfl, -⟩
    · exact ⟨_, hk', hsince rfl, hspent⟩
    · exact ⟨_, hk', hsince rfl, hspent⟩
    · exact ⟨_, hk', hsince rfl, hspent⟩

/-- A `propose` that starts has spent nothing. -/
theorem slow_of_propose (hung : List N) {i : N} {command : C}
    (hcluster : s.cluster.step cfg (.propose i command) = some s'.cluster)
    (hclock : s'.clock = s.clock.after s.cluster s'.cluster (fun _ => false) t)
    (hls : (s.cluster.nodes i).leaderState.isSome = true) :
    ∃ pc, s'.cluster.tasks = s.cluster.tasks ++ [⟨i, .propose, pc⟩] ∧
      s'.clock.since s.cluster.tasks.length = t ∧ Slow cfg hung s' t ⟨i, .propose, pc⟩ := by
  obtain ⟨pc, htasks, hpc⟩ := Cluster.tasks_of_propose hcluster hls
  have hnow : s'.clock.now = t := congrArg Clock.now hclock
  refine ⟨pc, htasks, ?_, ?_⟩
  · rw [hclock]
    exact s.clock.since_after_new (List.getElem?_eq_none (Nat.le_refl _))
  · rcases hpc with ⟨halone, rfl | rfl⟩ | ⟨o, nodeId, rest, r, hothers, rfl, hsent, rfl⟩
    · show _ ≤ s'.clock.now + _
      rw [halone, hnow]
    · show _ ≤ s'.clock.now + _
      rw [halone, hnow]
    · have hsame : s'.clock.sentAt s.cluster.rpcs.length = t := by
        rw [hclock]
        exact s.clock.sentAt_after_length
      refine ⟨r, hsent, hsame.le.trans hnow.ge, ?_⟩
      show _ ≤ s'.clock.sentAt _ + _
      rw [hsame, hothers]

theorem Slow.of_returned {since : ℚ} (h : Slow cfg hung s since task)
    (hpc : task.pc = .returned) :
    since + requestTimeout * hanging hung (cfg.getOtherNodes task.node) ≤ s.clock.now := by
  obtain ⟨node, kind, pc⟩ := task
  obtain rfl : pc = .returned := hpc
  have hspent : since + requestTimeout * hanging hung (cfg.getOtherNodes node) ≤
      s.clock.now + requestTimeout * hanging hung [] := h
  simpa [hanging] using hspent

/-- What every call of `propose` has spent, in a cluster that was reached. -/
structure Waited (cfg : Config N) (hung : List N) (s : TimedCluster N C) : Prop where
  leads : ∀ i, (s.cluster.nodes i).Leads
  slow : ∀ k task, s.cluster.tasks[k]? = some task → task.kind = .propose →
    Slow cfg hung s (s.clock.since k) task

theorem waited_step (h : Waited cfg hung s) (hhangs : Hangs hung s (t, a))
    (hs : s.step cfg (t, a) = some s') : Waited cfg hung s' := by
  obtain ⟨hle, -, hcluster, hclock⟩ := step_cases hs
  refine ⟨Cluster.leads_step h.leads hcluster, fun k task' hk' hkind => ?_⟩
  cases hk : s.cluster.tasks[k]? with
  | some task =>
    obtain ⟨task₁, htask₁, hstep⟩ := Cluster.taskStep_step hcluster hk
    obtain rfl := Option.some.inj (hk'.symm.trans htask₁)
    rw [hstep.kind] at hkind
    obtain ⟨pc, hpc, hsince, hslow⟩ := slow_step hle hcluster hclock hhangs hk hkind
      (h.slow k task hk hkind)
    rw [hsince, Option.some.inj (hk'.symm.trans hpc)]
    exact hslow
  | none =>
    obtain ⟨i, command, rfl⟩ := Cluster.new_task hcluster hk hk' hkind
    obtain ⟨pc, htasks, hsince, hslow⟩ := slow_of_propose hung hcluster hclock
      ((h.leads i).mpr (Cluster.leader_of_propose hcluster))
    rw [htasks] at hk'
    rcases getElem?_concat_cases hk' with hold | ⟨rfl, rfl⟩
    · rw [hk] at hold
      cases hold
    · rw [hsince]
      exact hslow

/-- **Replication waits for every follower.** While the nodes in `hung` answer nothing, no `propose`
    returns before it has spent a timeout on each of them, whatever the others answer. -/
theorem propose_slow {start : N → ℚ} {now : ℚ} {acts : List (ℚ × Action N C)}
    (hrun : (boot start now).run cfg acts = some s)
    (hhangs : (boot start now).EachStep cfg (Hangs hung) acts)
    (hk : s.cluster.tasks[k]? = some task) (hkind : task.kind = .propose)
    (hpc : task.pc = .returned) :
    s.clock.since k + requestTimeout * hanging hung (cfg.getOtherNodes task.node) ≤
      s.clock.now := by
  have hboot : Waited cfg hung (boot start now : TimedCluster N C) :=
    ⟨Cluster.leads_boot start, fun _ _ hk => by cases hk⟩
  have hend : Waited cfg hung s := Transition.run_preserves
    (fun _ _ _ hs hstepHangs hstep => waited_step hs hstepHangs hstep) hboot hhangs hrun
  exact (hend.slow k task hk hkind).of_returned hpc

/-! ## A node that takes requests and answers none -/

open scoped Cluster

instance (hung : List N) (s : TimedCluster N C) (a : ℚ × Action N C) : Decidable (Hangs hung s a) :=
  Option.decidableForallMem _

/-- Nodes 0 and 1 elect node 0 at time 6, and node 0 replicates a command. -/
def withoutAnswer : List (ℚ × Action (Fin 3) ℕ) :=
  [(1, .electionTimeout 0 (1 / 5) 1), (1, .deliver 0 1), (1, .resumeHandler 0 1),
    (6, .electionEnds 0 [1]), (6, .becameLeader 0), (6, .propose 0 7), (6, .deliver 2 6),
    (7, .reply 1), (12, .noReply 1), (12, .resume 1)]

theorem propose_slow_withoutAnswer :
    ∃ s : TimedCluster (Fin 3) ℕ,
      (boot (fun _ => 0) 0).run Cluster.threeNodes withoutAnswer = some s ∧
      s.clock.since 1 + requestTimeout * hanging [2] (Cluster.threeNodes.getOtherNodes 0) ≤
        s.clock.now := by
  have hrun : ((boot (fun _ => 0) 0 : TimedCluster (Fin 3) ℕ).run Cluster.threeNodes
      withoutAnswer).any (fun s => (s.cluster.tasks[1]?).any fun task =>
        decide (task.node = 0 ∧ task.kind = .propose) && task.pc.isReturned) = true := by
    decide +kernel
  have hhangs : (boot (fun _ => 0) 0 : TimedCluster (Fin 3) ℕ).EachStep Cluster.threeNodes
      (Hangs [2]) withoutAnswer := by
    decide +kernel
  obtain ⟨s, hs, hp⟩ := (Option.any_eq_true _ _).mp hrun
  obtain ⟨task, hk, hp⟩ := (Option.any_eq_true _ _).mp hp
  obtain ⟨hargs, hpc⟩ := Bool.and_eq_true_iff.mp hp
  obtain ⟨hnode, hkind⟩ := of_decide_eq_true hargs
  have hslow := propose_slow hs hhangs hk hkind (Pc.eq_returned hpc)
  rw [hnode] at hslow
  exact ⟨s, hs, hslow⟩

end TimedCluster

end Pynchronize
