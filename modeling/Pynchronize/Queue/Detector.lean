import Mathlib.Data.Rat.Defs
import Mathlib.Algebra.Order.Ring.Unbundled.Rat
import Pynchronize.Lib.Dict

/-!
# The failure detector

`FailureDetector` of a node: what it knows of the other nodes, how a heartbeat
and a round of `_check_nodes` change it, and which calls of `on_status_change`
they ask for. Clock readings are exact and come in any order.
-/

namespace Pynchronize

open Lib

inductive NodeStatus
  | alive
  | suspected
  | dead
  deriving DecidableEq

structure NodeState where
  status : NodeStatus := .alive
  lastHeartbeat : ℚ
  missedHeartbeats : ℤ := 0
  deriving DecidableEq

structure FailureDetector where
  nodeId : String
  heartbeatInterval : ℚ := 1
  suspectThreshold : ℤ := 3
  deadThreshold : ℤ := 5
  nodes : Dict String NodeState := Dict.empty

/-- The arguments of a call of `on_status_change`. -/
structure StatusChange where
  nodeId : String
  oldStatus : NodeStatus
  newStatus : NodeStatus
  deriving DecidableEq

/-- `int(x)` drops the fraction. -/
def truncate (x : ℚ) : ℤ := x.num.tdiv x.den

namespace FailureDetector

def registerNode (now : ℚ) (d : FailureDetector) (nodeId : String) : FailureDetector :=
  if nodeId ≠ d.nodeId ∧ nodeId ∉ d.nodes.keys then
    { d with nodes := d.nodes.set nodeId { lastHeartbeat := now } }
  else d

/-- The status of a node becomes `new`; the callback is asked for when it was another one. -/
def changeStatus (d : FailureDetector) (nodeId : String) (state : NodeState) (new : NodeStatus) :
    FailureDetector × Option StatusChange :=
  ({ d with nodes := d.nodes.set nodeId { state with status := new } },
    if state.status = new then none else some ⟨nodeId, state.status, new⟩)

def recordHeartbeat (now : ℚ) (d : FailureDetector) (nodeId : String) :
    FailureDetector × Option StatusChange :=
  match d.nodes.get? nodeId with
  | none => (d, none)
  | some node =>
    d.changeStatus nodeId { node with lastHeartbeat := now, missedHeartbeats := 0 } .alive

/-- One round of the loop of `_check_nodes`, `none` when the division raises. -/
def checkNode (now : ℚ) (d : FailureDetector) (nodeId : String) :
    Option (FailureDetector × Option StatusChange) :=
  match d.nodes.get? nodeId with
  | none => some (d, none)
  | some state =>
    if d.heartbeatInterval = 0 then none
    else
      let missed := truncate ((now - state.lastHeartbeat) / d.heartbeatInterval)
      if missed > state.missedHeartbeats then
        let state := { state with missedHeartbeats := missed }
        if missed ≥ d.deadThreshold then some (d.changeStatus nodeId state .dead)
        else if missed ≥ d.suspectThreshold then some (d.changeStatus nodeId state .suspected)
        else some ({ d with nodes := d.nodes.set nodeId state }, none)
      else some (d, none)

def getNodeStatus (d : FailureDetector) (nodeId : String) : Option NodeStatus :=
  (d.nodes.get? nodeId).map NodeState.status

/-! ## What a call changes -/

/-- The call sets the state of `nodeId`, known before, and asks for the callback when its status
    changes. -/
structure Sets (d : FailureDetector) (nodeId : String) (old new : NodeState)
    (r : FailureDetector × Option StatusChange) : Prop where
  known : d.nodes.get? nodeId = some old
  result : r.1 = { d with nodes := d.nodes.set nodeId new }
  change : r.2 = if old.status = new.status then none else some ⟨nodeId, old.status, new.status⟩

theorem Sets.get? {d : FailureDetector} {nodeId : String} {old new : NodeState}
    {r : FailureDetector × Option StatusChange} (h : d.Sets nodeId old new r) (n : String) :
    r.1.nodes.get? n = if nodeId = n then some new else d.nodes.get? n := by
  rw [h.result]
  exact Dict.get?_set d.nodes nodeId n new

theorem recordHeartbeat_unknown {d : FailureDetector} {nodeId : String}
    (h : d.nodes.get? nodeId = none) (now : ℚ) : d.recordHeartbeat now nodeId = (d, none) := by
  unfold recordHeartbeat
  rw [h]

theorem recordHeartbeat_known {d : FailureDetector} {nodeId : String} {old : NodeState}
    (h : d.nodes.get? nodeId = some old) (now : ℚ) :
    d.Sets nodeId old ⟨.alive, now, 0⟩ (d.recordHeartbeat now nodeId) := by
  unfold recordHeartbeat
  rw [h]
  exact ⟨h, rfl, rfl⟩

theorem recordHeartbeat_cases (now : ℚ) (d : FailureDetector) (nodeId : String) :
    d.recordHeartbeat now nodeId = (d, none) ∨
      ∃ old, d.Sets nodeId old ⟨.alive, now, 0⟩ (d.recordHeartbeat now nodeId) := by
  cases hget : d.nodes.get? nodeId with
  | none => exact Or.inl (recordHeartbeat_unknown hget now)
  | some old => exact Or.inr ⟨old, recordHeartbeat_known hget now⟩

theorem mem_recordHeartbeat {now : ℚ} {d : FailureDetector} {nodeId : String}
    {change : StatusChange} (h : change ∈ (d.recordHeartbeat now nodeId).2.toList) :
    change.newStatus = .alive ∧ change.nodeId = nodeId := by
  rcases d.recordHeartbeat_cases now nodeId with hsame | ⟨old, hs⟩
  · rw [hsame] at h
    cases h
  · rw [hs.change] at h
    split at h
    · cases h
    · obtain rfl := List.mem_singleton.mp h
      exact ⟨rfl, rfl⟩

/-- A node's state after its round of `_check_nodes`. -/
def checkedState (now : ℚ) (d : FailureDetector) (state : NodeState) : NodeState :=
  let missed := truncate ((now - state.lastHeartbeat) / d.heartbeatInterval)
  if missed > state.missedHeartbeats then
    { state with
      missedHeartbeats := missed
      status :=
        if missed ≥ d.deadThreshold then .dead
        else if missed ≥ d.suspectThreshold then .suspected
        else state.status }
  else state

theorem exists_checkNode {d : FailureDetector} (h : d.heartbeatInterval ≠ 0) (now : ℚ)
    (nodeId : String) : ∃ r, d.checkNode now nodeId = some r := by
  unfold checkNode
  cases d.nodes.get? nodeId with
  | none => exact ⟨_, rfl⟩
  | some old =>
    dsimp only
    rw [if_neg h]
    split
    · split
      · exact ⟨_, rfl⟩
      · split <;> exact ⟨_, rfl⟩
    · exact ⟨_, rfl⟩

/-- A round leaves a state as it is, or its count grows. -/
theorem checkNode_spec {now : ℚ} {d : FailureDetector} {nodeId : String}
    {r : FailureDetector × Option StatusChange} (h : d.checkNode now nodeId = some r) :
    (r = (d, none) ∧ ∀ old, d.nodes.get? nodeId = some old → d.checkedState now old = old) ∨
      ∃ old, d.Sets nodeId old (d.checkedState now old) r ∧
        old.missedHeartbeats < (d.checkedState now old).missedHeartbeats := by
  unfold checkNode at h
  cases hget : d.nodes.get? nodeId with
  | none =>
    rw [hget] at h
    exact Or.inl ⟨(Option.some.inj h).symm, fun old hold => by cases hold⟩
  | some old =>
    rw [hget] at h
    dsimp only at h
    split at h
    · cases h
    unfold checkedState
    split at h
    · rename_i hmore
      right
      split at h
      · rename_i hdead
        obtain rfl := Option.some.inj h
        exact ⟨old, ⟨hget, by simp [hmore, hdead, changeStatus],
          by simp [hmore, hdead, changeStatus]⟩, by simp [hmore]⟩
      · rename_i hdead
        split at h
        · rename_i hsuspect
          obtain rfl := Option.some.inj h
          exact ⟨old, ⟨hget, by simp [hmore, hdead, hsuspect, changeStatus],
            by simp [hmore, hdead, hsuspect, changeStatus]⟩, by simp [hmore]⟩
        · rename_i hsuspect
          obtain rfl := Option.some.inj h
          exact ⟨old, ⟨hget, by simp [hmore, hdead, hsuspect],
            by simp [hmore, hdead, hsuspect]⟩, by simp [hmore]⟩
    · rename_i hmore
      refine Or.inl ⟨(Option.some.inj h).symm, fun old' hold' => ?_⟩
      obtain rfl := Option.some.inj hold'
      exact if_neg hmore

/-- A greater count makes the status what the count says. -/
theorem checkedState_status {now : ℚ} {d : FailureDetector} {old : NodeState}
    (h : old.missedHeartbeats < (d.checkedState now old).missedHeartbeats) :
    (d.deadThreshold ≤ (d.checkedState now old).missedHeartbeats ∧
        (d.checkedState now old).status = .dead) ∨
      ((d.checkedState now old).missedHeartbeats < d.deadThreshold ∧
        ((d.checkedState now old).status = .suspected ∨
          (d.checkedState now old).status = old.status)) := by
  unfold checkedState at h ⊢
  dsimp only at h ⊢
  split at h
  · rename_i hmore
    rw [if_pos hmore]
    split
    · rename_i hdead
      exact Or.inl ⟨hdead, rfl⟩
    · rename_i hdead
      refine Or.inr ⟨lt_of_not_ge hdead, ?_⟩
      split
      · exact Or.inl rfl
      · exact Or.inr rfl
  · exact absurd h (lt_irrefl _)

end FailureDetector

end Pynchronize
