import Pynchronize.Base.Suspicion
import Pynchronize.Queue.Membership
import Pynchronize.Queue.Routing

/-!
# Routing after a failure

The QueueNodes of a cluster, each with a ring that follows its failure detector.
Some time after the other nodes have stopped, all live nodes have the same ring,
that of the live nodes, and route every key alike (`routing_agrees`).
-/

namespace Pynchronize

open Lib

namespace Membership

/-! ## Callbacks that do not raise -/

variable {hash : String → ℕ} {nodes : Finset String} {m : Membership} {d : FailureDetector}

/-- The ring is that of its nodes, so that the callback never raises and the checks go on. -/
structure Sound (hash : String → ℕ) (nodes : Finset String) (m : Membership) : Prop where
  tracks : Tracks nodes m
  owned : ConsistentHash.Owned hash m.consistentHash
  replicas : m.consistentHash.replicas = 100
  checking : m.checking = true

theorem ok_onNodeStatusChange (hinj : HashInjective hash 100 (nodes : Set String))
    (hs : Sound hash nodes m) {change : StatusChange} (hchange : change.nodeId ∈ nodes) :
    ∃ h, onNodeStatusChange hash m.consistentHash change = .ok h ∧ ConsistentHash.Owned hash h ∧
      h.replicas = 100 := by
  have hinj : HashInjective hash m.consistentHash.replicas (nodes : Set String) :=
    hs.replicas.symm ▸ hinj
  unfold onNodeStatusChange
  split
  · obtain ⟨h, hok, howned, -, hreplicas⟩ :=
      hs.owned.removeNode hinj hs.tracks.ring_sub change.nodeId
    exact ⟨h, hok, howned, hreplicas.trans hs.replicas⟩
  · split
    · obtain ⟨howned, -, hreplicas⟩ := hs.owned.addNode hinj hs.tracks.ring_sub hchange
      exact ⟨_, rfl, howned, hreplicas.trans hs.replicas⟩
    · exact ⟨_, rfl, hs.owned, hs.replicas⟩

theorem Sound.heartbeat (hs : Sound hash nodes m) (now : ℚ) (nodeId : String) :
    Sound hash nodes (m.heartbeat now nodeId) :=
  ⟨hs.tracks.heartbeat now nodeId, hs.owned, hs.replicas, hs.checking⟩

theorem Sound.callback (hinj : HashInjective hash 100 (nodes : Set String))
    (hs : Sound hash nodes m) {i : ℕ} (htimely : m.Timely (.callback i)) {change : StatusChange}
    (hi : m.tasks[i]? = some change) :
    Sound hash nodes { m.call hash change with tasks := m.tasks.eraseIdx i } := by
  have hmem := (hs.tracks.tasks change (List.mem_of_getElem? hi)).2
  obtain ⟨h, hok, howned, hreplicas⟩ := ok_onNodeStatusChange hinj hs hmem
  have hring : (m.call hash change).consistentHash = h := by
    unfold call
    rw [hok]
    rfl
  refine ⟨hs.tracks.call htimely hi, ?_, ?_, hs.checking⟩
  · show ConsistentHash.Owned hash (m.call hash change).consistentHash
    rw [hring]
    exact howned
  · show (m.call hash change).consistentHash.replicas = 100
    rw [hring]
    exact hreplicas

/-- One round of `_check_nodes` is that of the detector alone. -/
theorem Sound.checkRound (hinj : HashInjective hash 100 (nodes : Set String))
    (hs : Sound hash nodes m) (hinterval : m.failureDetector.heartbeatInterval ≠ 0) (now : ℚ)
    (nodeId : String) :
    ∃ r, m.failureDetector.checkNode now nodeId = some r ∧
      (m.checkRound hash now nodeId).failureDetector = r.1 ∧
      r.1.heartbeatInterval = m.failureDetector.heartbeatInterval ∧
      Sound hash nodes (m.checkRound hash now nodeId) := by
  obtain ⟨⟨d, change⟩, hr, hchecks⟩ := m.failureDetector.checkNode_checks hinterval now nodeId
  have hsame : d.heartbeatInterval = m.failureDetector.heartbeatInterval := by
    have hd : d = { m.failureDetector with nodes := d.nodes } := hchecks.same
    rw [hd]
  have htracks := hs.tracks.checkRound hash now nodeId
  refine ⟨(d, change), hr, ?_⟩
  unfold Membership.checkRound at htracks ⊢
  rw [hr] at htracks ⊢
  cases change with
  | none => exact ⟨rfl, hsame, htracks, hs.owned, hs.replicas, hs.checking⟩
  | some change =>
    have hmem : change.nodeId ∈ nodes := by
      rcases FailureDetector.checkNode_spec hr with ⟨heq, -⟩ | ⟨old, hsets, -⟩
      · cases heq
      · have hchange := hsets.change
        split at hchange
        · cases hchange
        · rw [Option.some.inj hchange]
          exact hs.tracks.known nodeId old hsets.known
    obtain ⟨h, hok, howned, hreplicas⟩ := ok_onNodeStatusChange hinj hs hmem
    dsimp only at htracks ⊢
    rw [hok] at htracks ⊢
    have hring : ({ m with failureDetector := d }.call hash change).consistentHash = h := by
      unfold call
      rw [hok]
      rfl
    exact ⟨rfl, hsame, htracks, hring.symm ▸ howned, hring.symm ▸ hreplicas, hs.checking⟩

theorem Sound.checkNodes (hinj : HashInjective hash 100 (nodes : Set String))
    (hs : Sound hash nodes m) (hinterval : m.failureDetector.heartbeatInterval ≠ 0) (now : ℚ)
    (l : List String) :
    ∃ r, m.failureDetector.checkRounds now l = some r ∧
      (m.checkNodes hash now l).failureDetector = r.1 ∧
      Sound hash nodes (m.checkNodes hash now l) := by
  induction l generalizing m with
  | nil => exact ⟨_, rfl, rfl, hs⟩
  | cons nodeId rest ih =>
    obtain ⟨⟨d, change⟩, hr, hd, hsame, hround⟩ := hs.checkRound hinj hinterval now nodeId
    have hd : (m.checkRound hash now nodeId).failureDetector = d := hd
    obtain ⟨⟨d', changes⟩, hr', hd', hrest⟩ := ih hround (by rw [hd]; exact hsame ▸ hinterval)
    rw [hd] at hr'
    unfold Membership.checkNodes FailureDetector.checkRounds
    dsimp only
    rw [if_pos hround.checking, hr]
    refine ⟨(d', change.toList ++ changes), ?_, hd', hrest⟩
    show (d.checkRounds now rest).bind _ = _
    rw [hr']
    rfl

theorem sound_start (hinj : HashInjective hash 100 (nodes : Set String)) (heartbeatInterval : ℚ)
    (nodeId : String) {l : List String} (hl : l.toFinset = nodes) (clock : String → ℚ) :
    Sound hash nodes (start hash heartbeatInterval nodeId l clock) := by
  subst hl
  have hl : ∀ node ∈ l, node ∈ (l.toFinset : Set String) := fun node hnode =>
    List.mem_toFinset.mpr hnode
  obtain ⟨howned, hreplicas, -⟩ := ConsistentHash.Owned.new hinj hl
  exact ⟨tracks_start hash heartbeatInterval nodeId l clock, howned, hreplicas, rfl⟩

end Membership

/-! ## The rings of a cluster -/

/-- The nodes with the loops of their failure detectors, and what a QueueNode keeps on each. -/
structure QueueMembers where
  base : BaseCluster
  members : String → Membership

inductive MemberAction
  | base (t : ℚ) (a : BaseAction)
  /-- A task that `record_heartbeat` left to the event loop of a node runs. -/
  | callback (j : String) (i : ℕ)

/-- A step of the nodes with its time. -/
def MemberAction.ofBase (x : ℚ × BaseAction) : MemberAction := .base x.1 x.2

/-- What an action of the nodes is for the failure detector of one of them. -/
def BaseCluster.event (s : BaseCluster) (t : ℚ) : BaseAction → Option (String × Membership.Event)
  | .deliver k => (s.heartbeats[k]?).map fun h => (h.target, .heartbeat h.sender t)
  | .check i => some (i, .check t)
  | _ => none

namespace QueueMembers

def boot (hash : String → ℕ) (cfg : BaseConfig) (start : String → ℚ) (now : ℚ) : QueueMembers where
  base := BaseCluster.boot cfg start now
  members j := Membership.start hash cfg.heartbeatInterval j cfg.nodes fun _ => start j

/-- The member at `j` takes an event. -/
def react (hash : String → ℕ) (s : QueueMembers) (base : BaseCluster) (j : String)
    (event : Membership.Event) : Option QueueMembers :=
  ((s.members j).step hash event).map fun m => ⟨base, Function.update s.members j m⟩

def step (hash : String → ℕ) (cfg : BaseConfig) (s : QueueMembers) :
    MemberAction → Option QueueMembers
  | .base t a =>
    match s.base.step cfg (t, a) with
    | some base =>
      match s.base.event t a with
      | some (j, event) => s.react hash base j event
      | none => some { s with base := base }
    | none => none
  | .callback j i =>
    if (s.base.nodes j).running = true then s.react hash s.base j (.callback i) else none

def run (hash : String → ℕ) (cfg : BaseConfig) (s : QueueMembers) (acts : List MemberAction) :
    Option QueueMembers :=
  Transition.run (step hash cfg) s acts

/-- A callback that puts a node back is not run while the node is dead. -/
def Timely (s : QueueMembers) : MemberAction → Prop
  | .callback j i => (s.members j).Timely (.callback i)
  | .base .. => True

/-- What the nodes do, without the callbacks. -/
def baseActs (acts : List MemberAction) : List (ℚ × BaseAction) :=
  acts.filterMap fun
    | .base t a => some (t, a)
    | .callback .. => none

variable {hash : String → ℕ} {cfg : BaseConfig} {s s' : QueueMembers} {j : String}

/-- The member at `j` is sound and has the failure detector of its node. -/
structure InStep (hash : String → ℕ) (cfg : BaseConfig) (s : QueueMembers) (j : String) : Prop where
  sound : Membership.Sound hash cfg.nodes.toFinset (s.members j)
  detector : (s.members j).failureDetector = (s.base.nodes j).failureDetector
  interval : (s.base.nodes j).failureDetector.heartbeatInterval = cfg.heartbeatInterval
  own : (s.base.nodes j).failureDetector.nodes.get? j = none
  tasks : ∀ change ∈ (s.members j).tasks,
    change.nodeId ≠ j ∧ change ∈ (s.base.nodes j).changes

theorem react_cases {base : BaseCluster} {i : String} {event : Membership.Event}
    (h : s.react hash base i event = some s') : ∃ m, (s.members i).step hash event = some m ∧
      s' = ⟨base, Function.update s.members i m⟩ := by
  obtain ⟨m, hm, rfl⟩ := Option.map_eq_some_iff.mp h
  exact ⟨m, hm, rfl⟩

theorem InStep.same (h : InStep hash cfg s j) (hmember : s'.members j = s.members j)
    (hwatched : BaseCluster.watched (s'.base.nodes j) = BaseCluster.watched (s.base.nodes j)) :
    InStep hash cfg s' j := by
  have hdetector : (s'.base.nodes j).failureDetector = (s.base.nodes j).failureDetector :=
    congrArg Prod.fst hwatched
  have hchanges : (s'.base.nodes j).changes = (s.base.nodes j).changes :=
    congrArg (fun p => p.2.2) hwatched
  refine ⟨hmember ▸ h.sound, by rw [hmember, hdetector, h.detector], by rw [hdetector, h.interval],
    by rw [hdetector, h.own], ?_⟩
  rw [hmember, hchanges]
  exact h.tasks

theorem InStep.ne_of_known (h : InStep hash cfg s j) {i : String} {state : NodeState}
    (hi : (s.base.nodes j).failureDetector.nodes.get? i = some state) : i ≠ j := by
  rintro rfl
  rw [h.own] at hi
  cases hi

theorem InStep.heartbeat (h : InStep hash cfg s j) {t : ℚ} {sender : String}
    (hmember : s'.members j = (s.members j).heartbeat t sender)
    (hnode : s'.base.nodes j = (s.base.nodes j).handleHeartbeat t sender) :
    InStep hash cfg s' j := by
  have hd : (s'.base.nodes j).failureDetector =
      ((s.base.nodes j).failureDetector.recordHeartbeat t sender).1 := by
    rw [hnode]
    rfl
  have hm : (s'.members j).failureDetector =
      ((s.members j).failureDetector.recordHeartbeat t sender).1 := by
    rw [hmember]
    rfl
  have hsound : Membership.Sound hash cfg.nodes.toFinset (s'.members j) :=
    hmember ▸ h.sound.heartbeat t sender
  have hchanges : (s'.base.nodes j).changes = (s.base.nodes j).changes ++
      ((s.base.nodes j).failureDetector.recordHeartbeat t sender).2.toList := by
    rw [hnode]
    rfl
  have htasks : (s'.members j).tasks = (s.members j).tasks ++
      ((s.base.nodes j).failureDetector.recordHeartbeat t sender).2.toList := by
    rw [hmember, ← h.detector]
    rfl
  refine ⟨hsound, by rw [hm, hd, h.detector], ?_, ?_, ?_⟩
  all_goals rcases (s.base.nodes j).failureDetector.recordHeartbeat_cases t sender with
    hsame | ⟨old, hsets⟩
  · rw [hd, hsame, h.interval]
  · rw [hd, hsets.result]
    exact h.interval
  · rw [hd, hsame, h.own]
  · rw [hd, hsets.get?, if_neg (h.ne_of_known hsets.known), h.own]
  · rw [htasks, hchanges, hsame]
    simpa using h.tasks
  · rw [htasks, hchanges]
    intro change hchange
    rcases List.mem_append.mp hchange with hold | hnew
    · exact ⟨(h.tasks change hold).1, List.mem_append_left _ (h.tasks change hold).2⟩
    · refine ⟨?_, List.mem_append_right _ hnew⟩
      rw [(FailureDetector.mem_recordHeartbeat hnew).2]
      exact h.ne_of_known hsets.known

theorem InStep.check (h : InStep hash cfg s j)
    (hinj : HashInjective hash 100 (cfg.nodes.toFinset : Set String))
    (hinterval : cfg.heartbeatInterval ≠ 0) {t : ℚ}
    (hmember : (s.members j).step hash (.check t) = some (s'.members j))
    (hnode : (s.base.nodes j).checkNodes cfg t = some (s'.base.nodes j)) :
    InStep hash cfg s' j := by
  have hkeys := (s.base.nodes j).failureDetector.nodes.keys_nodup
  obtain ⟨⟨d, changes⟩, hd, hn⟩ := Option.map_eq_some_iff.mp hnode
  obtain ⟨r, hr, hchecks⟩ := (s.base.nodes j).failureDetector.checkRounds_checks
    (h.interval.symm ▸ hinterval) t hkeys
  obtain rfl := Option.some.inj (hd.symm.trans hr)
  have hdetector : (s'.base.nodes j).failureDetector = d := by
    rw [← hn]
  have hchanges : (s'.base.nodes j).changes = (s.base.nodes j).changes ++ changes := by
    rw [← hn]
  have hinterval' : (s.members j).failureDetector.heartbeatInterval ≠ 0 := by
    rw [h.detector, h.interval]
    exact hinterval
  obtain ⟨r', hr', hm, hsound⟩ := h.sound.checkNodes hinj hinterval' t
    (s.members j).failureDetector.nodes.keys
  have hmember : (s.members j).checkNodes hash t (s.members j).failureDetector.nodes.keys =
      s'.members j := by
    unfold Membership.step at hmember
    dsimp only at hmember
    rw [if_pos h.sound.checking] at hmember
    exact Option.some.inj hmember
  rw [hmember] at hm hsound
  rw [h.detector] at hr'
  obtain rfl := Option.some.inj (hr'.symm.trans hr)
  refine ⟨hsound, hm.trans hdetector.symm, ?_, ?_, ?_⟩
  · rw [hdetector, ← h.interval]
    have hsame : d = { (s.base.nodes j).failureDetector with nodes := d.nodes } := hchecks.same
    rw [hsame]
  · rw [hdetector]
    have hget : d.nodes.get? j = if j ∈ (s.base.nodes j).failureDetector.nodes.keys then
        ((s.base.nodes j).failureDetector.nodes.get? j).map
          ((s.base.nodes j).failureDetector.checkedState t)
        else (s.base.nodes j).failureDetector.nodes.get? j := hchecks.get? j
    rw [hget, h.own]
    split <;> rfl
  · rw [← hmember, Membership.tasks_checkNodes, hchanges]
    exact fun change hchange =>
      ⟨(h.tasks change hchange).1, List.mem_append_left _ (h.tasks change hchange).2⟩

/-! ## One step -/

theorem step_base {t : ℚ} {a : BaseAction} (h : s.step hash cfg (.base t a) = some s') :
    s.base.step cfg (t, a) = some s'.base ∧
      ((∃ event, s.base.event t a = some (j, event) ∧
          (s.members j).step hash event = some (s'.members j)) ∨
        (∀ event, s.base.event t a ≠ some (j, event)) ∧ s'.members j = s.members j) := by
  unfold step at h
  dsimp only at h
  split at h
  · rename_i base hbase
    split at h
    · rename_i i event hevent
      obtain ⟨m, hm, rfl⟩ := react_cases h
      refine ⟨hbase, ?_⟩
      rw [hevent]
      rcases eq_or_ne i j with rfl | hne
      · have hmember : Function.update s.members i m i = m := Function.update_self ..
        exact Or.inl ⟨event, rfl, hm.trans (congrArg some hmember.symm)⟩
      · refine Or.inr ⟨fun event' heq => hne ?_, Function.update_of_ne hne.symm ..⟩
        exact congrArg Prod.fst (Option.some.inj heq)
    · rename_i hevent
      obtain rfl := Option.some.inj h
      refine ⟨hbase, Or.inr ⟨fun event heq => ?_, rfl⟩⟩
      rw [hevent] at heq
      cases heq
  · cases h

theorem inStep_base (h : InStep hash cfg s j)
    (hinj : HashInjective hash 100 (cfg.nodes.toFinset : Set String))
    (hinterval : cfg.heartbeatInterval ≠ 0) {t : ℚ} {a : BaseAction}
    (hs : s.step hash cfg (.base t a) = some s') : InStep hash cfg s' j := by
  obtain ⟨hbase, hcase⟩ := step_base (j := j) hs
  rcases hcase with ⟨event, hevent, hmember⟩ | ⟨hnot, hmember⟩
  · obtain ⟨-, base, hstepped, hnow⟩ := BaseCluster.step_cases hbase
    have hnodes : s'.base.nodes j = base.nodes j := by rw [hnow]
    cases hstepped with
    | @deliver k hb hsent =>
      obtain ⟨hb', hk, heq⟩ := Option.map_eq_some_iff.mp hevent
      obtain rfl := Option.some.inj (hsent.symm.trans hk)
      obtain ⟨rfl, rfl⟩ := Prod.mk.inj heq
      exact h.heartbeat (Option.some.inj hmember).symm
        (hnodes.trans (BaseCluster.nodes_setNode_self s.base _ _))
    | @check i n _ _ _ hn =>
      obtain ⟨rfl, rfl⟩ := Prod.mk.inj (Option.some.inj hevent)
      refine h.check hinj hinterval hmember (hn.trans (congrArg some ?_))
      rw [hnodes]
      exact (BaseCluster.nodes_setNode_self s.base _ _).symm
    | _ => cases hevent
  · refine h.same hmember ?_
    rcases BaseCluster.watched_of_step hbase j with
      ⟨k, hb, rfl, hk, -, htarget, -⟩ | ⟨rfl, -⟩ | ⟨hwatched, -⟩
    · refine absurd ?_ (hnot (.heartbeat hb.sender t))
      show (s.base.heartbeats[k]?).map _ = _
      rw [hk, ← htarget]
      rfl
    · exact absurd rfl (hnot (.check t))
    · exact hwatched

theorem inStep_step (h : InStep hash cfg s j)
    (hinj : HashInjective hash 100 (cfg.nodes.toFinset : Set String))
    (hinterval : cfg.heartbeatInterval ≠ 0) {a : MemberAction} (htimely : s.Timely a)
    (hs : s.step hash cfg a = some s') : InStep hash cfg s' j := by
  cases a with
  | base t a => exact inStep_base h hinj hinterval hs
  | callback i k =>
    obtain ⟨-, hreact⟩ := Option.ite_none_right_eq_some.mp hs
    obtain ⟨m, hm, rfl⟩ := react_cases hreact
    rcases eq_or_ne i j with rfl | hne
    · obtain ⟨change, hk, rfl⟩ := Option.map_eq_some_iff.mp hm
      have hmember : ∀ m, Function.update s.members i m i = m := fun m => Function.update_self ..
      refine ⟨?_, ?_, h.interval, h.own, ?_⟩
      · show Membership.Sound _ _ (Function.update s.members i _ i)
        rw [hmember]
        exact h.sound.callback hinj htimely hk
      · show (Function.update s.members i _ i).failureDetector = _
        rw [hmember]
        exact h.detector
      · show ∀ change ∈ (Function.update s.members i _ i).tasks, _
        rw [hmember]
        exact fun change hchange => h.tasks change (List.eraseIdx_subset hchange)
    · exact h.same (Function.update_of_ne hne.symm ..) rfl

/-! ## Runs -/

theorem inStep_boot (hinj : HashInjective hash 100 (cfg.nodes.toFinset : Set String))
    (start : String → ℚ) (now : ℚ) (j : String) : InStep hash cfg (boot hash cfg start now) j where
  sound := Membership.sound_start hinj cfg.heartbeatInterval j rfl fun _ => start j
  detector := rfl
  interval := by
    have hsame := (BaseNode.registerNodes_spec (start j) (cfg.getOtherNodes j)
      { nodeId := j, heartbeatInterval := cfg.heartbeatInterval }).1
    exact congrArg FailureDetector.heartbeatInterval hsame
  own := by
    refine Option.eq_none_iff_forall_ne_some.mpr fun state hstate => ?_
    rcases Membership.foldl_registerNode (fun _ => start j) (l := cfg.getOtherNodes j) hstate with
      hnone | ⟨hmem, -⟩
    · cases hnone
    · exact absurd rfl (of_decide_eq_true (List.mem_filter.mp hmem).2)
  tasks change hchange := by cases hchange

theorem base_run {acts : List MemberAction} (h : s.run hash cfg acts = some s') :
    s.base.run cfg (baseActs acts) = some s'.base := by
  induction acts generalizing s with
  | nil => exact congrArg some (congrArg base (Option.some.inj h))
  | cons a rest ih =>
    obtain ⟨u, hu, hrest⟩ := Transition.run_cons h
    cases a with
    | base t a =>
      exact (Transition.run_of_step (step_base (j := "") hu).1 _).trans (ih hrest)
    | callback i k =>
      obtain ⟨-, hreact⟩ := Option.ite_none_right_eq_some.mp hu
      obtain ⟨m, -, rfl⟩ := react_cases hreact
      have hbase := ih hrest
      exact hbase

open BaseCluster in
/-- **Routing agrees.** When all nodes that are not live have stopped, and six heartbeat intervals
    and the delays have passed, every live node has the ring of the live nodes, and any two of them
    give the same answers for every key. -/
theorem routing_agrees (tm : Timing) (live : List String)
    (hinj : HashInjective hash 100 (cfg.nodes.toFinset : Set String))
    (hinterval : 0 < cfg.heartbeatInterval)
    (hslack : tm.oversleep + tm.delivery + tm.broadcast < 2 * cfg.heartbeatInterval)
    (hlive : ∀ i ∈ live, i ∈ cfg.nodes) {start : String → ℚ} {now : ℚ}
    (hnow : ∀ i ∈ live, start i ≤ now)
    (hstart : ∀ i ∈ live, ∀ j ∈ live, start i ≤ start j + tm.broadcast)
    {before after : List MemberAction}
    (hbefore : (boot hash cfg start now).run hash cfg before = some s)
    (hstopped : ∀ i ∈ cfg.nodes, i ∉ live → (s.base.nodes i).running = false)
    (hafter : s.run hash cfg after = some s')
    (htimely : Transition.EachStep (step hash cfg) Timely (boot hash cfg start now)
      (before ++ after))
    (hregular : EachStep cfg (Regular tm live) (BaseCluster.boot cfg start now)
      (baseActs (before ++ after)))
    (hprompt : EachStep cfg (Prompt tm live) s.base (baseActs after))
    (hrunning : ∀ i ∈ live, (s'.base.nodes i).running = true)
    (hlong : s.base.now + tm.delivery + 6 * cfg.heartbeatInterval + tm.oversleep ≤ s'.base.now) :
    ∀ i ∈ live, (s'.members i).consistentHash.nodes = live.toFinset ∧ ∀ j ∈ live, ∀ key,
      (s'.members i).consistentHash.getNode hash key =
          (s'.members j).consistentHash.getNode hash key ∧
        ∀ count, (s'.members i).consistentHash.getNodesForKey hash key count =
          (s'.members j).consistentHash.getNodesForKey hash key count := by
  have hall : (boot hash cfg start now).run hash cfg (before ++ after) = some s' :=
    (Transition.run_append_of_run hbefore _).trans hafter
  have hbase : (BaseCluster.boot cfg start now).run cfg (baseActs (before ++ after)) =
      some s'.base := base_run hall
  have hinStep : ∀ j, InStep hash cfg s' j := fun j => Transition.run_preserves
    (fun _ _ _ hs htimely hstep => inStep_step hs hinj hinterval.ne' htimely hstep)
    (inStep_boot hinj start now j) htimely hall
  have hring : ∀ j ∈ live, (s'.members j).consistentHash.nodes = live.toFinset := by
    intro j hj
    have htracks := (hinStep j).sound.tracks
    refine Finset.ext fun n => ⟨fun hn => ?_, fun hn => ?_⟩
    · have hnodes := List.mem_toFinset.mp (htracks.ring_sub n hn)
      by_contra hnot
      have hnot : n ∉ live := fun hmem => hnot (List.mem_toFinset.mpr hmem)
      have hne : n ≠ j := fun heq => hnot (heq ▸ hj)
      obtain ⟨hdead, -⟩ := dead_of_stopped hinterval hj hnodes hne (hnow j hj) (base_run hbefore)
        (hstopped n hnodes hnot) (base_run hafter) hprompt (hrunning j hj) hlong
      rw [← (hinStep j).detector] at hdead
      obtain ⟨state, hget, hstatus⟩ := Membership.getNodeStatus_eq hdead
      exact htracks.dead_out n state hget hstatus hn
    · have hmem := List.mem_toFinset.mp hn
      -- no change is reported about a live node, so no callback for it is pending
      have hquiet : (s'.members j).failureDetector.getNodeStatus n ≠ some .dead ∧
          ∀ change ∈ (s'.members j).tasks, change.nodeId ≠ n := by
        rcases eq_or_ne n j with rfl | hne
        · refine ⟨fun hdead => ?_, fun change hchange => ((hinStep n).tasks change hchange).1⟩
          obtain ⟨state, hget, -⟩ := Membership.getNodeStatus_eq hdead
          rw [(hinStep n).detector, (hinStep n).own] at hget
          cases hget
        · obtain ⟨halive, hchanges⟩ := never_suspected hinterval hslack hmem hj (hlive n hmem)
            (hlive j hj) hne (hnow n hmem) (hnow j hj) (hstart n hmem j hj) hregular hbase
            (hrunning n hmem) (hrunning j hj)
          refine ⟨?_, fun change hchange => hchanges change ((hinStep j).tasks change hchange).2⟩
          rw [(hinStep j).detector, halive]
          decide
      exact (htracks.live_in n (List.mem_toFinset.mpr (hlive n hmem)) hquiet.1).resolve_right
        fun htask => hquiet.2 _ htask rfl
  intro i hi
  refine ⟨hring i hi, fun j hj key => ?_⟩
  exact (hinStep i).sound.owned.lookups_eq (hinStep j).sound.owned
    ((hinStep i).sound.replicas.trans (hinStep j).sound.replicas.symm)
    ((hring i hi).trans (hring j hj).symm) key

/-! ## Three nodes of which one stops -/

/-- Every run of the nodes is one of the members, since no callback raises. -/
theorem exists_run (hinj : HashInjective hash 100 (cfg.nodes.toFinset : Set String))
    (hinterval : cfg.heartbeatInterval ≠ 0) (h : ∀ j, InStep hash cfg s j)
    {acts : List (ℚ × BaseAction)} {base' : BaseCluster} (hrun : s.base.run cfg acts = some base') :
    ∃ s', s.run hash cfg (acts.map .ofBase) = some s' ∧ s'.base = base' ∧
      ∀ j, InStep hash cfg s' j := by
  induction acts generalizing s with
  | nil => exact ⟨s, rfl, Option.some.inj hrun, h⟩
  | cons x rest ih =>
    obtain ⟨base, hbase, hrest⟩ := Transition.run_cons hrun
    obtain ⟨t, a⟩ := x
    have hstep : ∃ u, s.step hash cfg (.base t a) = some u ∧ u.base = base := by
      unfold step
      dsimp only
      rw [hbase]
      dsimp only
      cases hevent : s.base.event t a with
      | none => exact ⟨_, rfl, rfl⟩
      | some p =>
        obtain ⟨j, event⟩ := p
        have hmember : ∃ m, (s.members j).step hash event = some m := by
          cases event with
          | heartbeat nodeId now => exact ⟨_, rfl⟩
          | check now => exact ⟨_, if_pos (h j).sound.checking⟩
          | callback i =>
            cases a with
            | deliver k =>
              obtain ⟨hb, -, heq⟩ := Option.map_eq_some_iff.mp hevent
              cases heq
            | _ => cases hevent
        obtain ⟨m, hm⟩ := hmember
        exact ⟨_, Option.map_eq_some_iff.mpr ⟨m, hm, rfl⟩, rfl⟩
    obtain ⟨u, hu, rfl⟩ := hstep
    obtain ⟨s', hs', hbase'⟩ := ih (fun j => inStep_base (h j) hinj hinterval hu) hrest
    exact ⟨s', (Transition.run_of_step hu _).trans hs', hbase'⟩

theorem baseActs_map (acts : List (ℚ × BaseAction)) :
    baseActs (acts.map .ofBase) = acts := by
  unfold baseActs
  rw [List.filterMap_map]
  exact List.filterMap_some

theorem hashInjective_of_nodup {replicas : ℕ} {names : List String}
    (h : ((names.product (List.range replicas)).map fun x =>
      hash (virtualKey x.1 x.2)).Nodup) :
    HashInjective hash replicas (names.toFinset : Set String) := by
  intro node hnode node' hnode' i hi i' hi' heq
  have hmem : ∀ {n : String} {k : ℕ}, n ∈ (names.toFinset : Set String) → k < replicas →
      (n, k) ∈ names.product (List.range replicas) := fun hn hk =>
    List.pair_mem_product.mpr ⟨List.mem_toFinset.mp hn, List.mem_range.mpr hk⟩
  obtain ⟨rfl, rfl⟩ := Prod.mk.inj
    (List.inj_on_of_nodup_map h (hmem hnode hi) (hmem hnode' hi') heq)
  rfl

def stopTiming : Timing :=
  ⟨1 / 4, 1 / 4, 1 / 4, by decide +kernel, by decide +kernel, by decide +kernel⟩

def hStops : List (ℚ × BaseAction) := [(0, .stop "h")]

/-- What the nodes `a` and `b` do every half second; `k` counts the heartbeats. -/
def stopRounds : List (ℚ × BaseAction) :=
  [(1 / 2, 0), (1, 4), (3 / 2, 8), (2, 12), (5 / 2, 16), (3, 20), (7 / 2, 24)].flatMap
    fun (t, k) => [.wake "a", .wake "b", .deliver k, .deliver (k + 2), .sendEnds "a" k,
      .sendEnds "a" (k + 1), .sendEnds "b" (k + 2), .sendEnds "b" (k + 3), .broadcastEnds "a",
      .broadcastEnds "b", .check "a", .check "b"].map fun a => (t, a)

open BaseCluster in
/-- Node `h` stops at once, and `a` and `b` come to the same ring. -/
theorem routing_agrees_trio :
    ∃ s : QueueMembers, (boot md5 trio (fun _ => 0) 0).run md5 trio
        ((hStops ++ stopRounds).map .ofBase) = some s ∧
      (s.members "a").consistentHash.nodes = {"a", "b"} ∧
      ∀ key, (s.members "a").consistentHash.getNode md5 key =
        (s.members "b").consistentHash.getNode md5 key := by
  have hinj : HashInjective md5 100 (trio.nodes.toFinset : Set String) :=
    hashInjective_of_nodup (by decide +kernel)
  have hbase : ((BaseCluster.boot trio (fun _ => 0) 0).run trio hStops).any (fun u =>
      u.now = 0 ∧ (u.nodes "h").running = false ∧
        EachStep trio (Prompt stopTiming ["a", "b"]) u stopRounds ∧
        (u.run trio stopRounds).any (fun u' => u'.now = 7 / 2 ∧
          ∀ i ∈ ["a", "b"], (u'.nodes i).running = true)) = true := by
    decide +kernel
  have hregular : EachStep trio (Regular stopTiming ["a", "b"])
      (BaseCluster.boot trio (fun _ => 0) 0) (hStops ++ stopRounds) := by
    decide +kernel
  obtain ⟨u, hu, h⟩ := (Option.any_eq_true _ _).mp hbase
  obtain ⟨hnow, hstopped, hprompt, hafter⟩ := of_decide_eq_true h
  obtain ⟨u', hu', h'⟩ := (Option.any_eq_true _ _).mp hafter
  obtain ⟨hnow', hrunning⟩ := of_decide_eq_true h'
  obtain ⟨s, hs, rfl, hinStep⟩ := exists_run hinj (by decide +kernel)
    (inStep_boot hinj (fun _ => 0) 0) hu
  obtain ⟨s', hs', rfl, -⟩ := exists_run hinj (by decide +kernel) hinStep hu'
  have hagrees := routing_agrees stopTiming ["a", "b"] hinj (by decide +kernel) (by decide +kernel)
    (by decide) (fun _ _ => le_rfl) (fun _ _ _ _ => by decide +kernel) hs
    (fun i hi hnot => ?_) hs'
    (Transition.eachStep_of_forall _ fun _ a ha => ?_)
    (by rw [← List.map_append, baseActs_map]; exact hregular)
    (by rw [baseActs_map]; exact hprompt) hrunning
    (by rw [hnow, hnow']; decide +kernel) "a" (by decide)
  · refine ⟨s', ?_, hagrees.1, fun key => (hagrees.2 "b" (by decide) key).1⟩
    rw [List.map_append]
    exact (Transition.run_append_of_run hs _).trans hs'
  · have hh : i = "h" := by
      rcases List.mem_cons.mp hi with rfl | hi
      · exact absurd (by decide) hnot
      · rcases List.mem_cons.mp hi with rfl | hi
        · exact absurd (by decide) hnot
        · exact List.mem_singleton.mp hi
    rw [hh]
    exact hstopped
  · rw [← List.map_append] at ha
    obtain ⟨x, -, rfl⟩ := List.mem_map.mp ha
    trivial

end QueueMembers

end Pynchronize
