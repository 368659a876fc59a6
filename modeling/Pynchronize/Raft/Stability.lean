import Mathlib.Tactic.Linarith
import Pynchronize.Raft.Timed

/-!
# A leader stays

A leader whose loop sleeps after a round that every other node has heard goes
on to lead, and nobody stands for election, as long as two rounds, the interval
between them and the delays fit into `election_timeout_min` (`leader_stays`).
What carries it: for every other node the next AppendEntries is on its way, or
the loop comes to it in time.
-/

namespace Pynchronize

open Lib

variable {N C : Type*}

/-- `heartbeatInterval` is the configured one in seconds. A round is one call of
    `_send_append_entries` with the commands it applies; the loop wakes up `oversleep` after its
    time, and a request is handled `delivery` after it was sent. -/
structure RaftTiming where
  heartbeatInterval : ℚ
  round : ℚ
  oversleep : ℚ
  delivery : ℚ
  heartbeatInterval_nonneg : 0 ≤ heartbeatInterval
  round_nonneg : 0 ≤ round
  oversleep_nonneg : 0 ≤ oversleep
  delivery_nonneg : 0 ≤ delivery

/-- The longest time between two AppendEntries of a leader to one node, until the second one is
    handled. -/
def RaftTiming.gap (tm : RaftTiming) : ℚ :=
  2 * tm.round + tm.heartbeatInterval + tm.oversleep + tm.delivery

def Action.raises (k : ℕ) : Action N C → Bool
  | .raise k' => k' = k
  | _ => false

namespace TimedCluster

/-- The time by which the loop in coroutine `k` has woken up, or its round has ended. -/
def due (tm : RaftTiming) (s : TimedCluster N C) (k : ℕ) : ℚ :=
  if (s.cluster.tasks[k]?).any (·.pc.isLooping) then
    s.clock.since k + tm.heartbeatInterval + tm.oversleep
  else s.clock.since k + tm.round

variable [DecidableEq N]

/-- An AppendEntries of the leadership of `l` that has not been handled. -/
def Outstanding (s : TimedCluster N C) (l : N) (r : Rpc N C) : Prop :=
  r.src = l ∧ r.message.term = (s.cluster.nodes l).persistent.currentTerm ∧
    r.message.payload.isAppendEntries = true ∧ r.pending = true

/-- Node `l` keeps its time and runs on, and no AppendEntries of its leadership is lost. -/
def Punctual (tm : RaftTiming) (l : N) (s : TimedCluster N C) (a : ℚ × Action N C) : Prop :=
  (∀ k ∈ (s.cluster.nodes l).heartbeatTask, a.1 ≤ s.due tm k ∧ a.2.raises k = false) ∧
    (∀ j < s.cluster.rpcs.length, ∀ r ∈ s.cluster.rpcs[j]?, s.Outstanding l r →
      a.1 ≤ s.clock.sentAt j + tm.delivery) ∧
    a.2.crashes l = false

/-- Node `l` leads the latest term, its loop in coroutine `k` sleeps, and every other node has heard
    of it in the round before. -/
structure Settled (cfg : Config N) (tm : RaftTiming) (l : N) (k : ℕ) (s : TimedCluster N C) :
    Prop where
  leader : (s.cluster.nodes l).state = .leader
  heartbeatTask : (s.cluster.nodes l).heartbeatTask = some k
  asleep : s.cluster.tasks[k]? = some ⟨l, .heartbeat, .looping⟩
  since : s.clock.since k ≤ s.clock.now
  heard : ∀ i ∈ cfg.getOtherNodes l,
    s.clock.since k ≤ (s.cluster.nodes i).lastHeartbeat + tm.round
  quiet : Cluster.Quiet (s.cluster.nodes l).persistent.currentTerm s.cluster

/-! ## The loop of the leader -/

/-- What a step makes of the coroutine of a loop on a node that leads on: nothing, the next request
    of a round, or the end of the loop over the nodes. -/
inductive LoopStep (cfg : Config N) (s s' : TimedCluster N C) (t : ℚ) (l : N) (k : ℕ) :
    Pc N C → Pc N C → Prop
  | stays {pc} (since : s'.clock.since k = s.clock.since k) : LoopStep cfg s s' t l k pc pc
  | sends {pc o nodeId rest r} (hrest : Task.remaining cfg ⟨l, .heartbeat, pc⟩ = nodeId :: rest)
      (hsent : s'.cluster.rpcs[s.cluster.rpcs.length]? = some r)
      (happends : Cluster.Appends s.cluster l nodeId r)
      (since : s'.clock.since k = if pc.isLooping then t else s.clock.since k) :
      LoopStep cfg s s' t l k pc (.sending o s.cluster.rpcs.length rest)
  | ends {pc pc'} (hrest : Task.remaining cfg ⟨l, .heartbeat, pc⟩ = [])
      (hpc : pc' = .applying ∨ pc' = .looping)
      (since : s'.clock.since k = if pc.isLooping || pc'.isLooping then t else s.clock.since k) :
      LoopStep cfg s s' t l k pc pc'

variable {cfg : Config N} {tm : RaftTiming} {s s' : TimedCluster N C} {t : ℚ} {a : Action N C}
  {l : N} {k T : ℕ}

/-- The time by which the loop has sent to node `i` and the request is handled: in this round if the
    loop has not come to `i`, and in the next one otherwise. -/
def reach (tm : RaftTiming) (i : N) (since : ℚ) : Pc N C → ℚ
  | .looping => since + tm.gap - tm.round
  | .sending _ _ rest =>
    if i ∈ rest then since + tm.round + tm.delivery else since + tm.gap
  | _ => since + tm.gap

/-- An AppendEntries of `l` is handled by node `i` before time `before`. -/
inductive Awaited (tm : RaftTiming) (s : TimedCluster N C) (l : N) (k : ℕ) (i : N) (before : ℚ) :
    Prop
  | sent {j r} (entry : s.cluster.rpcs[j]? = some r) (dst : r.dst = i)
      (outstanding : s.Outstanding l r) (soon : s.clock.sentAt j + tm.delivery < before)
  | planned {pc} (loop : s.cluster.tasks[k]? = some ⟨l, .heartbeat, pc⟩)
      (soon : reach tm i (s.clock.since k) pc < before)

theorem reach_le (tm : RaftTiming) (i : N) (since : ℚ) (pc : Pc N C) :
    reach tm i since pc ≤ since + tm.gap := by
  have hround := tm.round_nonneg
  have hinterval := tm.heartbeatInterval_nonneg
  have hoversleep := tm.oversleep_nonneg
  have hgap : tm.gap = 2 * tm.round + tm.heartbeatInterval + tm.oversleep + tm.delivery := rfl
  unfold reach
  split
  · linarith
  · split
    · linarith
    · exact le_rfl
  · exact le_rfl

omit [DecidableEq N] in
theorem due_eq {pc : Pc N C} (h : s.cluster.tasks[k]? = some ⟨l, .heartbeat, pc⟩) :
    s.due tm k = s.clock.since k +
      if pc.isLooping then tm.heartbeatInterval + tm.oversleep else tm.round := by
  unfold due
  rw [h, Option.any_some]
  split
  · exact add_assoc _ _ _
  · rfl

/-- The loop does not fall behind: if it does not send to node `i` now, it is no later there than
    was planned. -/
theorem LoopStep.reach {i : N} {pc pc' : Pc N C} (h : LoopStep cfg s s' t l k pc pc')
    (hi : i ∈ cfg.getOtherNodes l) (hk : s.cluster.tasks[k]? = some ⟨l, .heartbeat, pc⟩)
    (hdue : t ≤ s.due tm k) :
    reach tm i (s'.clock.since k) pc' ≤ reach tm i (s.clock.since k) pc ∨
      ∃ r, s'.cluster.rpcs[s.cluster.rpcs.length]? = some r ∧ Cluster.Appends s.cluster l i r ∧
        t + tm.delivery ≤ TimedCluster.reach tm i (s.clock.since k) pc := by
  have hround := tm.round_nonneg
  have hinterval := tm.heartbeatInterval_nonneg
  have hoversleep := tm.oversleep_nonneg
  have hdelivery := tm.delivery_nonneg
  have hgap : tm.gap = 2 * tm.round + tm.heartbeatInterval + tm.oversleep + tm.delivery := rfl
  rw [due_eq hk] at hdue
  cases h with
  | stays since =>
    rw [since]
    exact Or.inl le_rfl
  | @sends o nodeId rest r hrest hsent happends since =>
    cases pc with
    | looping =>
      have since : s'.clock.since k = t := since
      have hrest : cfg.getOtherNodes l = nodeId :: rest := hrest
      have hdue : t ≤ s.clock.since k + (tm.heartbeatInterval + tm.oversleep) := hdue
      rw [hrest] at hi
      rw [since]
      dsimp only [TimedCluster.reach]
      rcases List.mem_cons.mp hi with rfl | hmem
      · exact Or.inr ⟨r, hsent, happends, by linarith⟩
      · rw [if_pos hmem]
        exact Or.inl (by linarith)
    | sending o' j rest' =>
      obtain rfl : rest' = nodeId :: rest := hrest
      have since : s'.clock.since k = s.clock.since k := since
      have hdue : t ≤ s.clock.since k + tm.round := hdue
      rw [since]
      dsimp only [TimedCluster.reach]
      by_cases hmem : i ∈ rest
      · rw [if_pos hmem, if_pos (List.mem_cons_of_mem _ hmem)]
        exact Or.inl le_rfl
      · by_cases heq : i = nodeId
        · subst heq
          rw [if_pos (List.mem_cons_self ..)]
          exact Or.inr ⟨r, hsent, happends, by linarith⟩
        · rw [if_neg hmem, if_neg (List.not_mem_cons_of_ne_of_not_mem heq hmem)]
          exact Or.inl le_rfl
    | steppingDown rest' =>
      have since : s'.clock.since k = s.clock.since k := since
      rw [since]
      exact Or.inl (reach_le ..)
    | _ => cases hrest
  | @ends _ hrest hpc since =>
    left
    cases hlooping : pc.isLooping with
    | true =>
      cases pc with
      | looping =>
        have hrest : cfg.getOtherNodes l = [] := hrest
        rw [hrest] at hi
        cases hi
      | _ => cases hlooping
    | false =>
      have hlast : TimedCluster.reach tm i (s.clock.since k) pc = s.clock.since k + tm.gap := by
        cases pc with
        | looping => cases hlooping
        | sending o j rest =>
          obtain rfl : rest = [] := hrest
          dsimp only [TimedCluster.reach]
          rw [if_neg List.not_mem_nil]
        | _ => rfl
      rw [hlooping] at hdue since
      have hdue : t ≤ s.clock.since k + tm.round := hdue
      rw [hlast]
      rcases hpc with rfl | rfl
      · have since : s'.clock.since k = s.clock.since k := since
        rw [since]
        exact le_rfl
      · have since : s'.clock.since k = t := since
        rw [since]
        show t + tm.gap - tm.round ≤ _
        linarith

/-- What holds while `l` leads on in term `T`. -/
structure Leading (cfg : Config N) (tm : RaftTiming) (l : N) (k T : ℕ) (s : TimedCluster N C) :
    Prop where
  leader : (s.cluster.nodes l).state = .leader
  term : (s.cluster.nodes l).persistent.currentTerm = T
  leads : ∀ i, (s.cluster.nodes i).Leads
  saved : ∀ i, (s.cluster.nodes i).Saved
  quiet : Cluster.Quiet T s.cluster
  heartbeatTask : (s.cluster.nodes l).heartbeatTask = some k
  loop : ∃ pc, s.cluster.tasks[k]? = some ⟨l, .heartbeat, pc⟩
  since : s.clock.since k ≤ s.clock.now
  awaited : ∀ i ∈ cfg.getOtherNodes l,
    Awaited tm s l k i ((s.cluster.nodes i).lastHeartbeat + cfg.minTimeout)

/-- Nothing happens after the time by which an AppendEntries must have come. -/
theorem Awaited.before {i : N} {before : ℚ} (h : Awaited tm s l k i before)
    (hk : (s.cluster.nodes l).heartbeatTask = some k) (hp : Punctual tm l s (t, a)) :
    t < before := by
  have hdue : t ≤ s.due tm k := (hp.1 k hk).1
  have hround := tm.round_nonneg
  have hinterval := tm.heartbeatInterval_nonneg
  have hoversleep := tm.oversleep_nonneg
  have hdelivery := tm.delivery_nonneg
  have hgap : tm.gap = 2 * tm.round + tm.heartbeatInterval + tm.oversleep + tm.delivery := rfl
  cases h with
  | @sent j r entry dst outstanding soon =>
    have hhandled : t ≤ s.clock.sentAt j + tm.delivery :=
      hp.2.1 j (List.getElem?_eq_some_iff.mp entry).1 r entry outstanding
    exact hhandled.trans_lt soon
  | @planned pc loop soon =>
    rw [due_eq loop] at hdue
    refine lt_of_le_of_lt ?_ soon
    unfold reach
    split
    · have hdue : t ≤ s.clock.since k + (tm.heartbeatInterval + tm.oversleep) := hdue
      linarith
    · have hdue : t ≤ s.clock.since k + tm.round := hdue
      split
      · linarith
      · linarith
    · split at hdue
      · linarith
      · linarith

open scoped Cluster

instance (s : TimedCluster N C) (l : N) (r : Rpc N C) : Decidable (s.Outstanding l r) :=
  instDecidableAnd

instance (tm : RaftTiming) (l : N) (s : TimedCluster N C) (a : ℚ × Action N C) :
    Decidable (Punctual tm l s a) :=
  instDecidableAnd

end TimedCluster

end Pynchronize
