import Mathlib.Logic.Function.Basic
import Pynchronize.Queue.Heartbeats

/-!
# Nodes that send heartbeats

The BaseNodes of a cluster: each sleeps for an interval and sends a heartbeat to
all the others at once, and sleeps again when every one of these sends has
ended; each looks for silent nodes in a second loop. Actions carry the time, and
no clock is wrong. A node that is stopped does not come back.
-/

namespace Pynchronize

open Lib

/-- `heartbeatInterval` is the configured one in seconds. -/
structure BaseConfig where
  nodes : List String
  nodup : nodes.Nodup
  heartbeatInterval : ℚ

def BaseConfig.getOtherNodes (cfg : BaseConfig) (nodeId : String) : List String :=
  cfg.nodes.filter (· ≠ nodeId)

/-- `_heartbeat_loop` sleeps until a time, or is in `broadcast` since a time, with the sends that
    have not ended. -/
inductive HeartbeatLoop
  | sleeping (wake : ℚ)
  | broadcasting (since : ℚ) (sends : List ℕ)
  deriving DecidableEq

/-- `checkLoop` is the time at which `_check_loop` wakes; `changes` are the calls of
    `on_status_change`. -/
structure BaseNode where
  failureDetector : FailureDetector
  running : Bool := true
  heartbeatLoop : HeartbeatLoop
  checkLoop : ℚ
  changes : List StatusChange := []

/-- A HEARTBEAT that was sent. -/
structure Heartbeat where
  sender : String
  target : String
  sentAt : ℚ
  handled : Bool := false
  deriving DecidableEq

structure BaseCluster where
  now : ℚ
  nodes : String → BaseNode
  heartbeats : List Heartbeat

inductive BaseAction
  | wake (i : String)
  | sendEnds (i : String) (send : ℕ)
  | broadcastEnds (i : String)
  | deliver (heartbeat : ℕ)
  | check (i : String)
  | stop (i : String)

/-! ## One node -/

namespace BaseNode

def start (cfg : BaseConfig) (nodeId : String) (now : ℚ) : BaseNode where
  failureDetector := (cfg.getOtherNodes nodeId).foldl (fun d n => d.registerNode now n)
    { nodeId := nodeId, heartbeatInterval := cfg.heartbeatInterval }
  heartbeatLoop := .sleeping (now + cfg.heartbeatInterval)
  checkLoop := now + cfg.heartbeatInterval

def handleHeartbeat (n : BaseNode) (now : ℚ) (senderId : String) : BaseNode :=
  let (d, change) := n.failureDetector.recordHeartbeat now senderId
  { n with failureDetector := d, changes := n.changes ++ change.toList }

/-- `_check_nodes` and the next sleep; `none` when the division raises. -/
def checkNodes (cfg : BaseConfig) (n : BaseNode) (now : ℚ) : Option BaseNode :=
  (n.failureDetector.checkNodes now).map fun (d, changes) =>
    { n with
      failureDetector := d
      checkLoop := now + cfg.heartbeatInterval
      changes := n.changes ++ changes }

end BaseNode

namespace BaseCluster

/-- Each node was started at a time of its own, and none has woken yet. -/
def boot (cfg : BaseConfig) (start : String → ℚ) (now : ℚ) : BaseCluster where
  now := now
  nodes i := BaseNode.start cfg i (start i)
  heartbeats := []

def setNode (s : BaseCluster) (i : String) (n : BaseNode) : BaseCluster :=
  { s with nodes := Function.update s.nodes i n }

/-- `_send_heartbeats` up to the `await` in `broadcast`. -/
def sendHeartbeats (cfg : BaseConfig) (s : BaseCluster) (i : String) (t : ℚ) : BaseCluster :=
  let others := cfg.getOtherNodes i
  { s.setNode i
      { s.nodes i with
        heartbeatLoop := .broadcasting t (List.range' s.heartbeats.length others.length) } with
    heartbeats := s.heartbeats ++ others.map fun j => ⟨i, j, t, false⟩ }

def deliver (s : BaseCluster) (k : ℕ) (h : Heartbeat) (t : ℚ) : BaseCluster :=
  { s.setNode h.target ((s.nodes h.target).handleHeartbeat t h.sender) with
    heartbeats := s.heartbeats.set k { h with handled := true } }

/-- What happens at time `t`. -/
def act (cfg : BaseConfig) (s : BaseCluster) (t : ℚ) : BaseAction → Option BaseCluster
  | .wake i =>
    match (s.nodes i).heartbeatLoop with
    | .sleeping wake =>
      if i ∈ cfg.nodes ∧ (s.nodes i).running = true ∧ wake ≤ t then some (s.sendHeartbeats cfg i t)
      else none
    | .broadcasting .. => none
  | .sendEnds i k =>
    match (s.nodes i).heartbeatLoop with
    | .broadcasting since sends =>
      if (s.nodes i).running = true ∧ k ∈ sends then
        some (s.setNode i
          { s.nodes i with heartbeatLoop := .broadcasting since (sends.erase k) })
      else none
    | .sleeping _ => none
  | .broadcastEnds i =>
    match (s.nodes i).heartbeatLoop with
    | .broadcasting _ [] =>
      if (s.nodes i).running = true then
        some (s.setNode i
          { s.nodes i with heartbeatLoop := .sleeping (t + cfg.heartbeatInterval) })
      else none
    | _ => none
  | .deliver k =>
    match s.heartbeats[k]? with
    | some h =>
      if h.handled = false ∧ (s.nodes h.target).running = true then some (s.deliver k h t)
      else none
    | none => none
  | .check i =>
    if i ∈ cfg.nodes ∧ (s.nodes i).running = true ∧ (s.nodes i).checkLoop ≤ t then
      ((s.nodes i).checkNodes cfg t).map (s.setNode i)
    else none
  | .stop i => some (s.setNode i { s.nodes i with running := false })

/-- Time does not run backwards. -/
def step (cfg : BaseConfig) (s : BaseCluster) (a : ℚ × BaseAction) : Option BaseCluster :=
  if s.now ≤ a.1 then (s.act cfg a.1 a.2).map fun s' => { s' with now := a.1 } else none

def run (cfg : BaseConfig) (s : BaseCluster) (acts : List (ℚ × BaseAction)) :
    Option BaseCluster :=
  Transition.run (step cfg) s acts

/-- `P` holds at every step of a run. -/
abbrev EachStep (cfg : BaseConfig) (C : BaseCluster → ℚ × BaseAction → Prop) (s : BaseCluster)
    (acts : List (ℚ × BaseAction)) : Prop :=
  Transition.EachStep (step cfg) C s acts

/-! ## What a step does -/

inductive Stepped (cfg : BaseConfig) (s : BaseCluster) (t : ℚ) : BaseAction → BaseCluster → Prop
  | wake {i w} (mem : i ∈ cfg.nodes) (running : (s.nodes i).running = true)
      (loop : (s.nodes i).heartbeatLoop = .sleeping w) (due : w ≤ t) :
      Stepped cfg s t (.wake i) (s.sendHeartbeats cfg i t)
  | sendEnds {i k since sends} (running : (s.nodes i).running = true)
      (loop : (s.nodes i).heartbeatLoop = .broadcasting since sends) (mem : k ∈ sends) :
      Stepped cfg s t (.sendEnds i k) (s.setNode i
        { s.nodes i with heartbeatLoop := .broadcasting since (sends.erase k) })
  | broadcastEnds {i since} (running : (s.nodes i).running = true)
      (loop : (s.nodes i).heartbeatLoop = .broadcasting since []) :
      Stepped cfg s t (.broadcastEnds i) (s.setNode i
        { s.nodes i with heartbeatLoop := .sleeping (t + cfg.heartbeatInterval) })
  | deliver {k h} (sent : s.heartbeats[k]? = some h) (new : h.handled = false)
      (running : (s.nodes h.target).running = true) :
      Stepped cfg s t (.deliver k) (s.deliver k h t)
  | check {i n} (mem : i ∈ cfg.nodes) (running : (s.nodes i).running = true)
      (due : (s.nodes i).checkLoop ≤ t) (checked : (s.nodes i).checkNodes cfg t = some n) :
      Stepped cfg s t (.check i) (s.setNode i n)
  | stop {i} : Stepped cfg s t (.stop i) (s.setNode i { s.nodes i with running := false })

variable {cfg : BaseConfig} {s s' : BaseCluster}

theorem stepped_of_act {t : ℚ} {a : BaseAction} (h : s.act cfg t a = some s') :
    Stepped cfg s t a s' := by
  cases a with
  | wake i =>
    cases hloop : (s.nodes i).heartbeatLoop with
    | sleeping w =>
      rw [act, hloop] at h
      obtain ⟨⟨hmem, hrunning, hdue⟩, hs⟩ := Option.ite_none_right_eq_some.mp h
      exact Option.some.inj hs ▸ .wake hmem hrunning hloop hdue
    | broadcasting since sends =>
      rw [act, hloop] at h
      cases h
  | sendEnds i k =>
    cases hloop : (s.nodes i).heartbeatLoop with
    | sleeping w =>
      rw [act, hloop] at h
      cases h
    | broadcasting since sends =>
      rw [act, hloop] at h
      obtain ⟨⟨hrunning, hmem⟩, hs⟩ := Option.ite_none_right_eq_some.mp h
      exact Option.some.inj hs ▸ .sendEnds hrunning hloop hmem
  | broadcastEnds i =>
    cases hloop : (s.nodes i).heartbeatLoop with
    | sleeping w =>
      rw [act, hloop] at h
      cases h
    | broadcasting since sends =>
      cases sends with
      | nil =>
        rw [act, hloop] at h
        obtain ⟨hrunning, hs⟩ := Option.ite_none_right_eq_some.mp h
        exact Option.some.inj hs ▸ .broadcastEnds hrunning hloop
      | cons k rest =>
        rw [act, hloop] at h
        cases h
  | deliver k =>
    cases hsent : s.heartbeats[k]? with
    | none =>
      rw [act, hsent] at h
      cases h
    | some hb =>
      rw [act, hsent] at h
      obtain ⟨⟨hnew, hrunning⟩, hs⟩ := Option.ite_none_right_eq_some.mp h
      exact Option.some.inj hs ▸ .deliver hsent hnew hrunning
  | check i =>
    obtain ⟨⟨hmem, hrunning, hdue⟩, hs⟩ := Option.ite_none_right_eq_some.mp h
    obtain ⟨n, hn, rfl⟩ := Option.map_eq_some_iff.mp hs
    exact .check hmem hrunning hdue hn
  | stop i => exact Option.some.inj h ▸ .stop

theorem step_cases {t : ℚ} {a : BaseAction} (h : s.step cfg (t, a) = some s') :
    s.now ≤ t ∧ ∃ s₁, Stepped cfg s t a s₁ ∧ s' = { s₁ with now := t } := by
  obtain ⟨hle, hs⟩ := Option.ite_none_right_eq_some.mp h
  obtain ⟨s₁, hact, rfl⟩ := Option.map_eq_some_iff.mp hs
  exact ⟨hle, s₁, stepped_of_act hact, rfl⟩

theorem nodes_setNode_self (s : BaseCluster) (i : String) (n : BaseNode) :
    (s.setNode i n).nodes i = n :=
  Function.update_self ..

theorem nodes_setNode_of_ne (s : BaseCluster) {i j : String} (h : j ≠ i) (n : BaseNode) :
    (s.setNode i n).nodes j = s.nodes j :=
  Function.update_of_ne h ..

end BaseCluster

end Pynchronize
